import Mathlib.Order.Bounds.Defs
import Exploration.Proofs.Traversal.History

/-!
# The stack of a depth-first traversal

Whatever is scheduled and skipped, and whenever, the frontier of a depth-first traversal is the
list of the records that wait for their end, the last one scheduled at its head. So everything
the traversal reports is about that one, and it takes an initial state only when none is left.
-/

namespace Exploration.Traversal

variable {σ ι τ δ : Type} {M : TransitionSystem σ ι τ} {A : List ι}

/-- The record a report is the end of: its finish, or a skip that gave it up. -/
def Report.closed? : Report σ ι τ → Option RecordIndex
  | .event (.initial _) => none
  | .event (.start _ _) => none
  | .event (.edge _ _ _ _) => none
  | .event (.finish r _ _) => some r
  | .ended => none
  | .scheduled _ => none
  | .skippedLetter _ => none
  | .skippedState r => some r
  | .refused => none
  | .modified => none

/-- The record was scheduled and has not come to its end. -/
def Pending (h : List (Report σ ι τ)) (r : RecordIndex) : Prop :=
  .scheduled r ∈ h ∧ ∀ x ∈ h, x.closed? ≠ some r

def Started (h : List (Report σ ι τ)) (r : RecordIndex) : Prop := ∃ s, .event (.start r s) ∈ h

theorem Report.target_of_closed {x : Report σ ι τ} {r : RecordIndex} (h : x.closed? = some r) :
    x.target? = some r := by
  cases x with
  | event e => cases e <;> simp_all [closed?, target?, Event.record?]
  | _ => simp_all [closed?, target?]

theorem pending_snoc {h : List (Report σ ι τ)} {y : Report σ ι τ} {r : RecordIndex} :
    Pending (h ++ [y]) r ↔
      (.scheduled r ∈ h ∨ y = .scheduled r) ∧ (∀ x ∈ h, x.closed? ≠ some r) ∧
        y.closed? ≠ some r := by
  simp [Pending, or_imp, forall_and, eq_comm]

theorem started_snoc {h : List (Report σ ι τ)} {y : Report σ ι τ} {r : RecordIndex} :
    Started (h ++ [y]) r ↔ Started h r ∨ ∃ s, y = .event (.start r s) := by
  simp [Started, exists_or, eq_comm]

/-- Of the `n` records of the history `h` those on the stack, head first, are pending. The marks
tell which of them were started. -/
structure Stacked (h : List (Report σ ι τ)) (stack : List (RecordIndex × Bool)) (n : Nat) :
    Prop where
  sorted : (stack.map Prod.fst).Pairwise fun a b => b < a
  below : ∀ r ∈ stack.map Prod.fst, r < n
  pending : ∀ r, r ∈ stack.map Prod.fst ↔ Pending h r
  started : ∀ a ∈ stack, a.2 = true ↔ Started h a.1
  bounded : ∀ x ∈ h, ∀ r, x.target? = some r → r < n

namespace Stacked

variable {h : List (Report σ ι τ)} {stack : List (RecordIndex × Bool)} {n : Nat}
  {r : RecordIndex} {b : Bool} {y : Report σ ι τ}

theorem nil : Stacked ([] : List (Report σ ι τ)) [] 0 where
  sorted := .nil
  below := by simp
  pending := by simp [Pending]
  started := by simp
  bounded := by simp

/-- The head is the pending record that was scheduled last. -/
theorem top (k : Stacked h ((r, b) :: stack) n) : IsGreatest {q | Pending h q} r := by
  constructor
  · exact (k.pending r).1 List.mem_cons_self
  · intro q hq
    rcases List.mem_cons.1 ((k.pending q).2 hq) with rfl | hq
    · exact Nat.le_refl q
    · exact Nat.le_of_lt (List.rel_of_pairwise_cons k.sorted hq)

theorem not_started (k : Stacked h stack n) : ¬ Started h n := by
  rintro ⟨s, hs⟩
  exact Nat.lt_irrefl n (k.bounded _ hs n rfl)

theorem bounded_snoc (k : Stacked h stack n) (about : ∀ q, y.target? = some q → q < n) :
    ∀ x ∈ h ++ [y], ∀ q, x.target? = some q → q < n := by
  intro x hx q hq
  rcases List.mem_append.1 hx with hx | hx
  · exact k.bounded x hx q hq
  · rw [List.mem_singleton.1 hx] at hq
    exact about q hq

/-- A report that schedules, starts and ends no record. -/
theorem quiet (k : Stacked h stack n) (about : ∀ q, y.target? = some q → q ∈ stack.map Prod.fst)
    (schedules : ∀ q, y ≠ .scheduled q) (starts : ∀ q s, y ≠ .event (.start q s))
    (closes : y.closed? = none) : Stacked (h ++ [y]) stack n where
  sorted := k.sorted
  below := k.below
  pending q := by
    rw [k.pending q, pending_snoc, closes]
    simp [Pending, schedules q]
  started a ha := by
    rw [k.started a ha, started_snoc]
    simp [starts a.1]
  bounded := k.bounded_snoc fun q hq => k.below q (about q hq)

theorem start (k : Stacked h ((r, false) :: stack) n) (s : σ) :
    Stacked (h ++ [.event (.start r s)]) ((r, true) :: stack) n where
  sorted := k.sorted
  below := k.below
  pending q := by
    rw [pending_snoc]
    simpa [Pending, Report.closed?] using k.pending q
  started := by
    refine List.forall_mem_cons.2 ⟨by simp [started_snoc], fun a ha => ?_⟩
    have below : a.1 < r := List.rel_of_pairwise_cons k.sorted (List.mem_map_of_mem ha)
    rw [k.started a (List.mem_cons_of_mem _ ha), started_snoc]
    simp [Nat.ne_of_gt below]
  bounded := by
    refine k.bounded_snoc fun q hq => ?_
    obtain rfl : r = q := Option.some.inj hq
    exact k.below r List.mem_cons_self

/-- The head comes to its end. -/
theorem pop (k : Stacked h ((r, b) :: stack) n) (closes : y.closed? = some r) :
    Stacked (h ++ [y]) stack n where
  sorted := k.sorted.of_cons
  below q hq := k.below q (List.mem_cons_of_mem r hq)
  pending q := by
    have schedules : y ≠ .scheduled q := by
      rintro rfl
      cases closes
    -- The stack below has smaller numbers, so it loses no record with the head.
    have above : q ∈ stack.map Prod.fst → q ≠ r := fun hq =>
      Nat.ne_of_lt (List.rel_of_pairwise_cons k.sorted hq)
    have same := k.pending q
    rw [List.map_cons, List.mem_cons] at same
    rw [pending_snoc, closes]
    constructor
    · intro hq
      obtain ⟨hs, hc⟩ := same.1 (.inr hq)
      exact ⟨.inl hs, hc, fun he => above hq (Option.some.inj he).symm⟩
    · rintro ⟨hs, hc, ne⟩
      have waits : Pending h q := ⟨hs.resolve_right schedules, hc⟩
      exact (same.2 waits).resolve_left fun he => ne (congrArg some he.symm)
  started a ha := by
    have starts : ∀ s, y ≠ .event (.start a.1 s) := by
      rintro s rfl
      cases closes
    rw [k.started a (List.mem_cons_of_mem _ ha), started_snoc]
    simp [starts]
  bounded := by
    refine k.bounded_snoc fun q hq => ?_
    obtain rfl : r = q := Option.some.inj ((Report.target_of_closed closes).symm.trans hq)
    exact k.below r List.mem_cons_self

theorem push (k : Stacked h stack n) :
    Stacked (h ++ [.scheduled n]) ((n, false) :: stack) (n + 1) where
  sorted := List.pairwise_cons.2 ⟨k.below, k.sorted⟩
  below := List.forall_mem_cons.2
    ⟨Nat.lt_succ_self n, fun r hr => Nat.lt_succ_of_lt (k.below r hr)⟩
  pending q := by
    -- A record that is new cannot have come to its end.
    have open' : ∀ x ∈ h, x.closed? ≠ some n := fun x hx closes =>
      Nat.lt_irrefl n (k.bounded x hx n (Report.target_of_closed closes))
    rw [List.map_cons, List.mem_cons, k.pending q, pending_snoc]
    by_cases hq : q = n
    · rw [hq]
      simpa [Report.closed?] using open'
    · simp [Pending, Report.closed?, hq, Ne.symm hq]
  started := by
    refine List.forall_mem_cons.2 ⟨?_, fun a ha => ?_⟩
    · simpa [started_snoc] using k.not_started
    · rw [k.started a ha, started_snoc]
      simp
  bounded x hx q hq := by
    rcases List.mem_append.1 hx with hx | hx
    · exact Nat.lt_succ_of_lt (k.bounded x hx q hq)
    · rw [List.mem_singleton.1 hx] at hq
      cases hq

end Stacked

/-- The frontier after every history holds the pending records. -/
theorem stacked_of_reached {h : List (Report σ ι τ)} {t : Traversal M A .depthFirst δ}
    (reached : Reached M A .depthFirst h t) : Stacked h t.outline t.recordCount := by
  induction reached with
  | begin => exact .nil
  | @move h t u x before last k =>
    have about : ∀ q, x.target? = some q → q ∈ t.outline.map Prod.fst := by
      intro q hq
      obtain ⟨v, rest, head, rfl⟩ := last.head_of_target hq
      rw [outline_of_cons head]
      exact List.mem_cons_self
    cases last with
    | event advance =>
      cases advance with
      | initial idle unread records pending =>
        rw [outline_congr pending, recordCount_of_records records]
        exact k.quiet about (by simp) (by simp) rfl
      | start ready head fresh unread records pending =>
        rw [outline_of_cons head, fresh] at k
        rw [outline_of_cons pending, recordCount_of_records records]
        exact k.start _
      | edge ready head begun step unread records pending =>
        obtain ⟨-, label, -, started, -⟩ := Visit.next_of_some step
        rw [outline_of_step head pending label started, recordCount_of_records records]
        exact k.quiet about (by simp) (by simp) rfl
      | finish ready head begun step unread records pending =>
        rw [outline_of_cons head] at k
        rw [outline, pending, recordCount_of_records records]
        exact k.pop rfl
    | ended => exact k.quiet about (by simp) (by simp) rfl
    | scheduled s d =>
      rw [recordCount_schedule, outline, pending_schedule]
      exact k.push
    | skippedLetter head unread records pending =>
      rw [outline_of_step head pending rfl rfl, recordCount_of_records records]
      exact k.quiet about (by simp) (by simp) rfl
    | skippedState head unread records pending =>
      rw [outline_of_cons head] at k
      rw [outline, pending, recordCount_of_records records]
      exact k.pop rfl
    | refused => exact k.quiet about (by simp) (by simp) rfl
    | modified r change =>
      rw [recordCount_modifyData]
      exact k.quiet about (by simp) (by simp) rfl

theorem not_pending_of_nil {h : List (Report σ ι τ)} {t : Traversal M A .depthFirst δ}
    (reached : Reached M A .depthFirst h t) (pending : t.pending = []) (r : RecordIndex) :
    ¬ Pending h r := by
  intro hr
  have waits := ((stacked_of_reached reached).pending r).2 hr
  rw [outline, pending] at waits
  cases waits

/-- The stack discipline, for every consumer. Each start, edge and finish, like each skip, is about
the pending record with the greatest number, so nothing comes of a record after its end; it is
the start exactly if the record was not started before. An initial state is reported, in its
turn, only when no record is pending, and the traversal ends only when none is left either. -/
theorem depthFirst_stack {ms : List (Move σ δ)} {h : List (Report σ ι τ)}
    {t : Traversal M A .depthFirst δ} (played : (begin M A .depthFirst δ).play ms = (h, t))
    {before after : List (Report σ ι τ)} {x : Report σ ι τ} (split : h = before ++ x :: after) :
    (∀ r, x.target? = some r → IsGreatest {q | Pending before q} r) ∧
    (∀ e r, x = .event e → e.record? = some r → (e.isStart = true ↔ ¬ Started before r)) ∧
    (∀ s, x = .event (.initial s) →
      (∀ r, ¬ Pending before r) ∧ initials before ++ [s] <+: M.initial) ∧
    (x = .ended → (∀ r, ¬ Pending before r) ∧ initials before = M.initial) := by
  obtain ⟨u, w, reached, move⟩ := (reached_of_play played).split split
  have k := stacked_of_reached reached
  refine ⟨fun r hr => ?_, ?_, ?_, ?_⟩
  · obtain ⟨v, rest, head, rfl⟩ := move.head_of_target hr
    rw [outline_of_cons head] at k
    exact k.top
  · rintro e r rfl hr
    obtain ⟨v, rest, head, rfl⟩ := move.head_of_target hr
    rw [outline_of_cons head] at k
    cases move with
    | event advance =>
      rw [advance.isStart_iff head hr, ← k.started _ List.mem_cons_self, Bool.not_eq_true]
  · rintro s rfl
    cases move with
    | event advance =>
      cases advance with
      | initial idle unread =>
        have none : u.pending = [] := idle.resolve_left (by decide)
        refine ⟨not_pending_of_nil reached none, ⟨w.unread, ?_⟩⟩
        rw [← reached.initials_append_unread, unread, List.append_assoc, List.singleton_append]
  · rintro rfl
    cases move with
    | ended unread pending =>
      refine ⟨not_pending_of_nil reached pending, ?_⟩
      rw [← reached.initials_append_unread, unread, List.append_nil]

/-- The record scheduled last is started and given up, and the one below it comes next. -/
theorem depthFirst_stack_relay :
    ((begin relay ['a'] .depthFirst Unit).play
      [.schedule 0 (), .schedule 3 (), .next, .skipState, .next]).1 =
        [.scheduled 0, .scheduled 1, .event (.start 1 3), .skippedState 1, .event (.start 0 0)] ∧
    IsGreatest {r | Pending ([.scheduled 0, .scheduled 1, .event (.start 1 3),
      .skippedState 1] : List (Report Nat Char (Fin 1))) r} 0 := by
  have reports : ((begin relay ['a'] .depthFirst Unit).play
      [.schedule 0 (), .schedule 3 (), .next, .skipState, .next]).1 =
        [.scheduled 0, .scheduled 1, .event (.start 1 3), .skippedState 1] ++
          [.event (.start 0 0)] := by
    rfl
  obtain ⟨top, -⟩ := depthFirst_stack rfl reports
  exact ⟨reports, top 0 rfl⟩

end Exploration.Traversal
