import Mathlib.Order.Bounds.Defs
import Exploration.Proofs.Traversal.History

/-!
# The head of the frontier

The pending visits are those of the records that wait: scheduled, not finished and, depth-first, not
given up. They lie in the order of their numbers, ascending breadth-first and descending
depth-first, so the head is the first or the last of the records that wait.
-/

namespace Exploration

/-- Of two pending visits the one with the record `r` lies before that with the record `q`. -/
def Order.Ahead : Order → RecordIndex → RecordIndex → Prop
  | .breadthFirst, r, q => r < q
  | .depthFirst, r, q => q < r

theorem Order.map_place {ε ζ : Type} (f : ε → ζ) (o : Order) (e : ε) (es : List ε) :
    (o.place e es).map f = o.place (f e) (es.map f) := by
  cases o <;> simp [Order.place]

theorem Order.Ahead.ne {o : Order} {r q : RecordIndex} (h : o.Ahead r q) : r ≠ q := by
  cases o with
  | breadthFirst => exact Nat.ne_of_lt h
  | depthFirst => exact Nat.ne_of_gt h

namespace Traversal

variable {σ ι τ δ : Type} {M : TransitionSystem σ ι τ} {A : List ι} {o : Order}

/-- The record was scheduled, and its visit is still to end. -/
def Waiting (o : Order) (h : List (Report σ ι τ)) (r : RecordIndex) : Prop :=
  .scheduled r ∈ h ∧ (∀ s b, .event (.finish r s b) ∉ h) ∧
    (o = .depthFirst → .skippedState r ∉ h)

/-- The report ends the visit of the record. -/
def Report.Ends (o : Order) (y : Report σ ι τ) (r : RecordIndex) : Prop :=
  (∃ s b, y = .event (.finish r s b)) ∨ o = .depthFirst ∧ y = .skippedState r

theorem Report.Ends.target {y : Report σ ι τ} {r : RecordIndex} (h : y.Ends o r) :
    y.target? = some r := by
  rcases h with ⟨s, b, rfl⟩ | ⟨-, rfl⟩ <;> rfl

theorem waiting_iff {h : List (Report σ ι τ)} {r : RecordIndex} :
    Waiting o h r ↔ .scheduled r ∈ h ∧ ∀ y ∈ h, ¬ y.Ends o r := by
  refine and_congr_right fun _ => ?_
  constructor
  · rintro ⟨unfinished, kept⟩ y hy (⟨s, b, rfl⟩ | ⟨deep, rfl⟩)
    · exact unfinished s b hy
    · exact kept deep hy
  · intro none
    exact ⟨fun s b hy => none _ hy (.inl ⟨s, b, rfl⟩), fun deep hy => none _ hy (.inr ⟨deep, rfl⟩)⟩

theorem waiting_snoc {h : List (Report σ ι τ)} {y : Report σ ι τ} {r : RecordIndex} :
    Waiting o (h ++ [y]) r ↔
      (.scheduled r ∈ h ∨ y = .scheduled r) ∧ (∀ x ∈ h, ¬ x.Ends o r) ∧ ¬ y.Ends o r := by
  rw [waiting_iff]
  simp [or_imp, forall_and, eq_comm]

/-- Of the `n` records of the history `h` those at `labels` wait. -/
structure Lined (o : Order) (h : List (Report σ ι τ)) (labels : List RecordIndex) (n : Nat) :
    Prop where
  sorted : labels.Pairwise o.Ahead
  below : ∀ r ∈ labels, r < n
  waiting : ∀ r, r ∈ labels ↔ Waiting o h r
  bounded : ∀ x ∈ h, ∀ r, x.target? = some r → r < n

namespace Lined

variable {h : List (Report σ ι τ)} {labels : List RecordIndex} {n : Nat} {r : RecordIndex}
  {y : Report σ ι τ}

theorem nil : Lined o ([] : List (Report σ ι τ)) [] 0 where
  sorted := .nil
  below := by simp
  waiting := by simp [Waiting]
  bounded := by simp

theorem nodup (k : Lined o h labels n) : labels.Nodup := k.sorted.imp Order.Ahead.ne

theorem bounded_snoc (k : Lined o h labels n) (about : ∀ q, y.target? = some q → q ∈ labels) :
    ∀ x ∈ h ++ [y], ∀ q, x.target? = some q → q < n := by
  intro x hx q hq
  rcases List.mem_append.1 hx with hx | hx
  · exact k.bounded x hx q hq
  · rw [List.mem_singleton.1 hx] at hq
    exact k.below q (about q hq)

/-- A report that neither schedules a record nor ends a visit. -/
theorem quiet (k : Lined o h labels n) (about : ∀ q, y.target? = some q → q ∈ labels)
    (schedules : ∀ q, y ≠ .scheduled q) (ends : ∀ q, ¬ y.Ends o q) :
    Lined o (h ++ [y]) labels n where
  sorted := k.sorted
  below := k.below
  waiting q := by
    rw [k.waiting q, waiting_iff, waiting_snoc]
    simp [schedules q, ends q]
  bounded := k.bounded_snoc about

/-- The visit at the head ends. -/
theorem pop (k : Lined o h (r :: labels) n) (ends : y.Ends o r) :
    Lined o (h ++ [y]) labels n where
  sorted := k.sorted.of_cons
  below q hq := k.below q (List.mem_cons_of_mem r hq)
  waiting q := by
    have only {q : RecordIndex} (hq : y.Ends o q) : r = q :=
      Option.some.inj (ends.target.symm.trans hq.target)
    have schedules : y ≠ .scheduled q := by
      rintro rfl
      cases ends.target
    have same := k.waiting q
    rw [List.mem_cons, waiting_iff] at same
    rw [waiting_snoc, or_iff_left schedules]
    constructor
    · intro hq
      obtain ⟨hs, he⟩ := same.1 (.inr hq)
      refine ⟨hs, he, fun hy => ?_⟩
      exact (List.rel_of_pairwise_cons k.sorted hq).ne (only hy)
    · rintro ⟨hs, he, kept⟩
      refine (same.2 ⟨hs, he⟩).resolve_left ?_
      rintro rfl
      exact kept ends
  bounded := k.bounded_snoc fun _ hq =>
    List.mem_cons.2 (.inl (Option.some.inj (hq.symm.trans ends.target)))

/-- A new record comes in where the order puts it. -/
theorem push (k : Lined o h labels n) :
    Lined o (h ++ [.scheduled n]) (o.place n labels) (n + 1) where
  sorted := by
    cases o with
    | breadthFirst =>
      refine List.pairwise_append.2 ⟨k.sorted, List.pairwise_singleton _ _, fun q hq p hp => ?_⟩
      rw [List.mem_singleton.1 hp]
      exact k.below q hq
    | depthFirst => exact List.pairwise_cons.2 ⟨k.below, k.sorted⟩
  below q hq := by
    rcases Order.mem_place.1 hq with rfl | hq
    · exact Nat.lt_succ_self q
    · exact Nat.lt_succ_of_lt (k.below q hq)
  waiting q := by
    have quiet : ¬ (.scheduled n : Report σ ι τ).Ends o q := fun h => nomatch h.target
    rw [Order.mem_place, k.waiting q, waiting_iff, waiting_snoc]
    constructor
    · rintro (rfl | ⟨hs, he⟩)
      -- A record that is new cannot have come to its end.
      · refine ⟨.inr rfl, fun x hx ends => ?_, quiet⟩
        exact Nat.lt_irrefl q (k.bounded x hx q ends.target)
      · exact ⟨.inl hs, he, quiet⟩
    · rintro ⟨hs | hs, he, -⟩
      · exact .inr ⟨hs, he⟩
      · exact .inl (Report.scheduled.inj hs).symm
  bounded x hx q hq := by
    rcases List.mem_append.1 hx with hx | hx
    · exact Nat.lt_succ_of_lt (k.bounded x hx q hq)
    · rw [List.mem_singleton.1 hx] at hq
      cases hq

end Lined

/-- The frontier after every history holds the records that wait. -/
theorem lined_of_reached {h : List (Report σ ι τ)} {t : Traversal M A o δ}
    (reached : Reached M A o h t) :
    Lined o h (t.pending.map Visit.label) t.recordCount := by
  induction reached with
  | begin => exact .nil
  | @move h t u x before last k =>
    have about : ∀ q, x.target? = some q → q ∈ t.pending.map Visit.label := by
      intro q hq
      obtain ⟨v, rest, head, rfl⟩ := last.head_of_target hq
      exact List.mem_map_of_mem (head ▸ List.mem_cons_self)
    have plain (schedules : ∀ q, x ≠ .scheduled q) (ends : ∀ q, ¬ x.Ends o q) :=
      k.quiet about schedules ends
    -- The visit at the head goes on as `a`.
    have step {v a : Visit σ ι τ RecordIndex} {rest : List (Visit σ ι τ RecordIndex)}
        (head : t.pending = v :: rest) (after : u.pending = a :: rest)
        (label : a.label = v.label) (records : u.records = t.records)
        (schedules : ∀ q, x ≠ .scheduled q) (ends : ∀ q, ¬ x.Ends o q) :
        Lined o (h ++ [x]) (u.pending.map Visit.label) u.recordCount := by
      rw [after, List.map_cons, label, ← List.map_cons, ← head, recordCount_of_records records]
      exact plain schedules ends
    -- The visit at the head ends.
    have leave {v : Visit σ ι τ RecordIndex} {rest : List (Visit σ ι τ RecordIndex)}
        (head : t.pending = v :: rest) (after : u.pending = rest)
        (records : u.records = t.records) (ends : x.Ends o v.label) :
        Lined o (h ++ [x]) (u.pending.map Visit.label) u.recordCount := by
      rw [head] at k
      rw [after, recordCount_of_records records]
      exact k.pop ends
    cases last with
    | event advance =>
      cases advance with
      | initial idle unread records pending =>
        rw [pending, recordCount_of_records records]
        exact plain (by simp) (by simp [Report.Ends])
      | start ready head fresh unread records pending =>
        exact step head pending rfl records (by simp) (by simp [Report.Ends])
      | edge ready head begun next unread records pending =>
        have label := (Visit.next_of_some next).2.1
        exact step head pending label records (by simp) (by simp [Report.Ends])
      | finish ready head begun next unread records pending =>
        exact leave head pending records (.inl ⟨_, _, rfl⟩)
    | ended => exact plain (by simp) (by simp [Report.Ends])
    | scheduled s d =>
      rw [pending_schedule, recordCount_schedule, Order.map_place]
      exact k.push
    | skippedLetter head unread records pending =>
      exact step head pending rfl records (by simp) (by simp [Report.Ends])
    | skippedState head unread records pending =>
      cases o with
      | breadthFirst => exact step head pending rfl records (by simp) (by simp [Report.Ends])
      | depthFirst => exact leave head pending records (.inr ⟨rfl, rfl⟩)
    | refused => exact plain (by simp) (by simp [Report.Ends])
    | modified r change =>
      rw [recordCount_modifyData]
      exact plain (by simp) (by simp [Report.Ends])

end Traversal

end Exploration
