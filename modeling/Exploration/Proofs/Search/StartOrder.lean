import Exploration.Proofs.Search.Coloring
import Exploration.Proofs.Search.EdgeKind
import Exploration.Proofs.Search.Starts

/-!
# Starts in the order of creation

Records are started in the order of their numbers. Breadth-first that is the queue. Depth-first
the frontier is a stack, but a call creates at most one record, which is the next to be started
unless it is given up before: so at most one record waits for its start, and it is the last one
created. `Orderly` is this invariant.
-/

namespace Exploration

/-- An increasing list of numbers that leaves out none below its last. -/
theorem eq_range_of_pairwise {l : List Nat} (rising : l.Pairwise (· < ·))
    (closed : ∀ a ∈ l, ∀ b < a, b ∈ l) : l = List.range l.length := by
  induction l using List.reverseRecOn with
  | nil => rfl
  | append_singleton l a ih =>
    obtain ⟨before, -, below⟩ := List.pairwise_append.1 rising
    have lt {b : Nat} (hb : b ∈ l) : b < a := below b hb a List.mem_cons_self
    have same : l = List.range l.length := by
      refine ih before fun c hc b hb => ?_
      rcases List.mem_append.1 (closed c (List.mem_append_left [a] hc) b hb) with hb' | hb'
      · exact hb'
      · have := lt hc
        have := List.mem_singleton.1 hb'
        omega
    have notMem : ∀ b ∈ l, b < l.length := fun b hb => List.mem_range.1 (same ▸ hb)
    have mem : ∀ b < l.length, b ∈ l := fun b hb => same ▸ List.mem_range.2 hb
    have last : a = l.length := by
      by_contra ne
      rcases Nat.lt_or_gt_of_ne ne with less | more
      · exact Nat.lt_irrefl a (lt (mem a less))
      · rcases List.mem_append.1 (closed a (List.mem_append_right l List.mem_cons_self) _ more)
          with hb | hb
        · exact Nat.lt_irrefl _ (notMem _ hb)
        · exact ne (List.mem_singleton.1 hb).symm
    rw [List.length_append, List.length_singleton, List.range_succ, ← same, ← last]

namespace Search

variable {σ ι τ : Type}

theorem mem_started {evs : List (Event ι τ)} {r : RecordIndex} :
    r ∈ started evs ↔ .start r ∈ evs := by
  rw [started, List.mem_filterMap]
  constructor
  · rintro ⟨e, he, hr⟩
    cases e <;> simp_all [Event.started?]
  · intro he
    exact ⟨.start r, he, rfl⟩

theorem mem_started_events {h : List (Report ι τ)} {r : RecordIndex} :
    r ∈ started (events h) ↔ .event (.start r) ∈ h :=
  mem_started.trans mem_events

/-- The records a report starts. -/
def Report.started? (y : Report ι τ) : Option RecordIndex := y.event?.bind Event.started?

theorem started_events_snoc (h : List (Report ι τ)) (y : Report ι τ) :
    started (events (h ++ [y])) = started (events h) ++ y.started?.toList := by
  rw [events_snoc, started_append]
  cases he : y.event? with
  | none => simp [Report.started?, he, started]
  | some e => cases hs : e.started? <;> simp [Report.started?, he, hs, started]

/-- Of the `n` records of the history `h` those on the stack, head first, are pending. An unstarted
head is the last record there is. -/
structure Orderly (h : List (Report ι τ)) (stack : List (RecordIndex × Bool)) (n : Nat) :
    Prop where
  newest : ∀ r rest, stack = (r, false) :: rest → n = r + 1
  rising : (started (events h)).Pairwise (· < ·)
  settled : ∀ r < n, r ∈ stack.map Prod.fst ∨ .event (.start r) ∈ h ∨ .skippedState r ∈ h

namespace Orderly

variable {h : List (Report ι τ)} {stack : List (RecordIndex × Bool)} {n : Nat} {r : RecordIndex}
  {y : Report ι τ}

theorem nil : Orderly ([] : List (Report ι τ)) [] 0 where
  newest := by simp
  rising := .nil
  settled := by simp

/-- A record that was neither started nor given up waits at the head, as the last one. -/
theorem last_of_unstarted (k : Orderly h stack n) (stacked : Stacked h stack n) (there : r < n)
    (unstarted : .event (.start r) ∉ h) (kept : .skippedState r ∉ h) : n = r + 1 := by
  have waits : r ∈ stack.map Prod.fst :=
    (k.settled r there).resolve_right (not_or.2 ⟨unstarted, kept⟩)
  obtain ⟨⟨q, b⟩, ha, rfl⟩ := List.mem_map.1 waits
  have fresh : b = false := by
    rw [← Bool.not_eq_true, stacked.started _ ha]
    exact unstarted
  subst fresh
  cases stack with
  | nil => cases ha
  | cons a rest =>
    rcases List.mem_cons.1 ha with rfl | behind
    · exact k.newest _ rest rfl
    · exact absurd (stacked.begun _ behind) Bool.false_ne_true

/-- A record that was passed over was given up. -/
theorem skipped_of_lt (k : Orderly h stack n) (stacked : Stacked h stack n) {q : RecordIndex}
    (started : .event (.start q) ∈ h) (below : r < q) (unstarted : .event (.start r) ∉ h) :
    .skippedState r ∈ h := by
  have there := stacked.start_lt q started
  by_contra kept
  rw [k.last_of_unstarted stacked (Nat.lt_trans below there) unstarted kept] at there
  exact Nat.not_lt.2 below there

theorem settled_snoc (k : Orderly h stack n) (y : Report ι τ) : ∀ r < n,
    r ∈ stack.map Prod.fst ∨ .event (.start r) ∈ h ++ [y] ∨ .skippedState r ∈ h ++ [y] :=
  fun r there => (k.settled r there).imp_right
    (Or.imp (List.mem_append_left [y]) (List.mem_append_left [y]))

theorem rising_snoc (k : Orderly h stack n) (starts : y.started? = none) :
    (started (events (h ++ [y]))).Pairwise (· < ·) := by
  rw [started_events_snoc, starts, Option.toList_none, List.append_nil]
  exact k.rising

/-- A report that starts nothing and leaves the stack as it is. -/
theorem quiet (k : Orderly h stack n) (starts : y.started? = none) :
    Orderly (h ++ [y]) stack n :=
  ⟨k.newest, k.rising_snoc starts, k.settled_snoc y⟩

/-- A new record comes to the head. -/
theorem push (k : Orderly h stack n) (starts : y.started? = none) :
    Orderly (h ++ [y]) ((n, false) :: stack) (n + 1) where
  newest r rest same := by
    obtain ⟨rfl, -⟩ := Prod.mk.inj (List.cons.inj same).1
    rfl
  rising := k.rising_snoc starts
  settled r there := by
    rcases Nat.lt_succ_iff_lt_or_eq.1 there with there | rfl
    · exact (k.settled_snoc y r there).imp_left (List.mem_cons_of_mem n)
    · exact .inl List.mem_cons_self

/-- The unstarted head has the greatest number, so it is started after all others. -/
theorem start (k : Orderly h ((r, false) :: stack) n)
    (stacked : Stacked h ((r, false) :: stack) n) :
    Orderly (h ++ [.event (.start r)]) ((r, true) :: stack) n where
  newest q rest same := by simp at same
  rising := by
    rw [started_events_snoc]
    refine List.pairwise_append.2 ⟨k.rising, List.pairwise_singleton _ _, fun q hq p hp => ?_⟩
    obtain rfl := List.mem_singleton.1 hp
    have started := mem_started_events.1 hq
    have below : q ≤ p := by
      have lt := stacked.start_lt q started
      rw [k.newest p stack rfl] at lt
      exact Nat.le_of_lt_succ lt
    refine Nat.lt_of_le_of_ne below ?_
    rintro rfl
    exact absurd ((stacked.started _ List.mem_cons_self).2 started) Bool.false_ne_true
  settled := k.settled_snoc _

/-- The head leaves the stack, having been started or given up. -/
theorem pop {b : Bool} (k : Orderly h ((r, b) :: stack) n) (stacked : Stacked h ((r, b) :: stack) n)
    (starts : y.started? = none) (done : .event (.start r) ∈ h ∨ y = .skippedState r) :
    Orderly (h ++ [y]) stack n where
  newest q rest same := by
    have begun := stacked.begun (q, false) (by simp [same])
    cases begun
  rising := k.rising_snoc starts
  settled q there := by
    rcases k.settled_snoc y q there with on | off
    · rcases List.mem_cons.1 on with rfl | on
      · rcases done with begun | rfl
        · exact .inr (.inl (List.mem_append_left [y] begun))
        · exact .inr (.inr (List.mem_append_right h List.mem_cons_self))
      · exact .inl on
    · exact .inr off

end Orderly

/-- Only the head of the stack may be unstarted. -/
theorem Stacked.length_unstarted_le {h : List (Report ι τ)} {w : View σ ι τ} {n : Nat}
    (k : Stacked h w.outline n) : (w.pending.filter fun v => !v.started).length ≤ 1 := by
  have begun := k.begun
  rw [View.outline] at begun
  cases hp : w.pending with
  | nil => simp
  | cons v rest =>
    rw [hp] at begun
    have none : rest.filter (fun v => !v.started) = [] :=
      List.filter_eq_nil_iff.2 fun a ha => by
        have started : a.started = true := begun _ (List.mem_map_of_mem ha)
        simp [started]
    rw [List.filter_cons, none]
    split <;> simp

section Reached

variable {M : TransitionSystem σ ι τ} {A : List ι} {o : Order} {h : List (Report ι τ)}
  {w : View σ ι τ} {evs : List (Event ι τ)}

theorem orderly_of_reached (reached : View.Reached M A .depthFirst h w) :
    Orderly h w.outline w.states.length := by
  induction reached with
  | begin => exact .nil
  | @move h w w' y before last k =>
    obtain ⟨stacked, -⟩ := stacked_of_reached before
    cases last with
    | event advance =>
      cases advance with
      | known idle unread met => exact k.quiet rfl
      | @root t rest idle unread new =>
        rw [View.outline_enter, View.length_enter]
        exact k.push rfl
      | @start v rest ready head fresh =>
        rw [View.outline_of_cons head, fresh] at k stacked
        exact k.start stacked
      | @tree v v' rest i x ready head begun step new =>
        obtain ⟨-, label, -, started, -⟩ := Visit.next_of_some step
        rw [View.outline_enter, View.length_enter, View.outline_of_step head label started]
        exact k.push rfl
      | @edge v v' rest i x r ready head begun step met =>
        obtain ⟨-, label, -, started, -⟩ := Visit.next_of_some step
        rw [View.note_depthFirst, View.outline_of_step head label started]
        exact k.quiet rfl
      | @finish v v' rest ready head begun step =>
        have started : .event (.start v.label) ∈ h :=
          (colored_of_reached before).begun v (head ▸ List.mem_cons_self) begun
        rw [View.outline_of_cons head] at k stacked
        exact k.pop stacked rfl (.inl started)
    | ended unread pending => exact k.quiet rfl
    | @skippedLetter v rest head =>
      rw [View.outline_of_step (a := v.skipLetter) head rfl rfl]
      exact k.quiet rfl
    | @skippedState v rest head =>
      rw [View.outline_of_cons head] at k stacked
      exact k.pop stacked rfl (.inr rfl)
    | refused pending => exact k.quiet rfl
    | modified => exact k.quiet rfl

/-- Without skips no record is passed over. -/
theorem View.Runs.started_eq_range (run : View.Runs M A o evs w) :
    started evs = List.range (started evs).length := by
  cases o with
  | breadthFirst =>
    obtain ⟨k, j, queued⟩ := run.sweeps.queued
    rw [queued.started, List.length_range]
  | depthFirst =>
    obtain ⟨stacked, -⟩ := stacked_of_reached run.reached
    have orderly := orderly_of_reached run.reached
    have rising := orderly.rising
    rw [events_map_event] at rising
    refine eq_range_of_pairwise rising fun q hq r below => ?_
    have starts : .event (.start q) ∈ evs.map Report.event :=
      List.mem_map_of_mem (mem_started.1 hq)
    by_contra unstarted
    have last := orderly.last_of_unstarted stacked (r := r)
      (Nat.lt_trans below (stacked.start_lt q starts)) ?_ (by simp)
    · have := stacked.start_lt q starts
      omega
    · intro start
      exact unstarted (mem_started.2 (by simpa using start))

end Reached

section Drawing

variable {δ : Type} [DecidableEq σ] [Hashable σ] [Inhabited δ] {M : TransitionSystem σ ι τ}
  {A : List ι} {o : Order} {evs : List (Event ι τ)} {s : Search M A o δ}

/-- Drawing a state goes on to the next start, or to the end. -/
theorem Coherent.runs_nextState (c : s.Coherent) (run : View.Runs M A o evs s.view) :
    s.nextState.2.Coherent ∧ ∃ more, View.Runs M A o (evs ++ more) s.nextState.2.view ∧
      (started more = [] ∧ s.nextState.1 = none ∧ s.nextState.2.next.1 = none ∨
        ∃ r, started more = [r] ∧ s.nextState.1 = s.nextState.2.states[r]?) := by
  -- Every event but a start takes one from the backlog.
  induction h : s.traversal.backlog using Nat.strongRecOn generalizing evs s with
  | ind n ih =>
    cases hn : s.next with
    | mk e u =>
      cases e with
      | none =>
        obtain rfl : u = s := next_of_none hn
        rw [nextState_of_none hn, hn]
        exact ⟨c, [], by simpa using run, .inl ⟨rfl, rfl, rfl⟩⟩
      | some e =>
        obtain ⟨cu, adv⟩ := c.advances hn
        have runu := run.event adv
        by_cases start : e.kind = .start
        · obtain ⟨r, rfl⟩ := Event.exists_of_kind_start start
          rw [nextState_of_start hn]
          exact ⟨cu, [.start r], runu, .inr ⟨r, rfl, (getElem?_states u r).symm⟩⟩
        · have less : u.traversal.backlog < n := by
            have taken := backlog_next hn start
            omega
          rw [nextState_of_ne hn start]
          obtain ⟨c', more, run', gives⟩ := ih _ less cu runu rfl
          have same := started_cons_of_ne start more
          exact ⟨c', e :: more, by simpa using run', by rwa [same]⟩

/-- What is drawn are the states of the records started, and nothing after the end. -/
theorem exists_runs_draw (M : TransitionSystem σ ι τ) (A : List ι) (o : Order) (n : Nat) :
    ∃ s, (draw nextState (begin M A o δ) n).2 = s ∧ s.Coherent ∧
      ∃ evs k, View.Runs M A o evs s.view ∧ (k = 0 ∨ s.next.1 = none) ∧
        (draw nextState (begin M A o δ) n).1 =
          (started evs).map (s.states[·]?) ++ .replicate k none := by
  induction n with
  | zero => exact ⟨_, rfl, .begin, [], 0, .begin, .inl rfl, rfl⟩
  | succ n ih =>
    obtain ⟨s, drew, c, evs, k, run, busy, drawn⟩ := ih
    rw [draw, drew, drawn]
    by_cases ended : s.next.1 = none
    · rw [nextState_of_ended (next_eq_none_iff.1 ended)]
      refine ⟨s, rfl, c, evs, k + 1, run, .inr ended, ?_⟩
      rw [List.replicate_succ', List.append_assoc]
    obtain rfl : k = 0 := busy.resolve_right ended
    obtain ⟨c', more, run', gives⟩ := c.runs_nextState run
    have kept : (started evs).map (s.states[·]?) =
        (started evs).map (s.nextState.2.states[·]?) := by
      refine List.map_congr_left fun r hr => ?_
      have met := List.getElem?_eq_getElem (run.recounts.met_of_started hr)
      exact met.trans (run.states_append run' met).symm
    rw [List.replicate_zero, List.append_nil, kept]
    rcases gives with ⟨none, nothing, ended⟩ | ⟨r, one, given⟩
    · refine ⟨_, rfl, c', evs ++ more, 1, run', .inr ended, ?_⟩
      rw [started_append, none, List.append_nil, nothing]
      rfl
    · refine ⟨_, rfl, c', evs ++ more, 0, run', .inl rfl, ?_⟩
      rw [started_append, one, given]
      simp

/-- The states are drawn in the order of their records. -/
theorem record_of_draw {n i : Nat} {t : σ}
    (drawn : (draw nextState (begin M A o δ) n).1[i]? = some (some t)) :
    ((draw nextState (begin M A o δ) n).2.record? i).map (·.state) = some t := by
  obtain ⟨s, drew, c, evs, k, run, -, all⟩ := exists_runs_draw (δ := δ) M A o n
  rw [drew, ← getElem?_states]
  rw [all, run.started_eq_range] at drawn
  grind

/-- In every run of a search records are started in the order of their numbers. Breadth-first no
record is passed over. Depth-first only records that are given up are passed over, and at most one
waits for its start. Without skips the states drawn from a search are those of the records that it
starts, and the state in place `i` is that of record `i`. -/
theorem starts_in_order {ms : List (Move δ)} {h : List (Report ι τ)} {s : Search M A o δ}
    (played : (begin M A o δ).play ms = (h, s)) :
    (started (events h)).Pairwise (· < ·) ∧
    (o = .breadthFirst → started (events h) = List.range (started (events h)).length) ∧
    (o = .depthFirst →
      (∀ q r, .event (.start q) ∈ h → r < q → .event (.start r) ∉ h → .skippedState r ∈ h) ∧
      (s.traversal.pending.filter fun v => !v.started).length ≤ 1) ∧
    ((∀ m ∈ ms, m ≠ .skipLetter ∧ m ≠ .skipState) →
      (draw nextState (begin M A o δ) (started (events h)).length).1 =
        (started (events h)).map fun r => (s.record? r).map (·.state)) ∧
    ∀ (n i : Nat) (t : σ), (draw nextState (begin M A o δ) n).1[i]? = some (some t) →
      ((draw nextState (begin M A o δ) n).2.record? i).map (·.state) = some t := by
  obtain ⟨c, reached⟩ := reached_of_play played
  refine ⟨?_, ?_, ?_, fun plain => ?_, fun n i t => record_of_draw⟩
  · cases o with
    | breadthFirst =>
      obtain ⟨k, j, queued⟩ := reached.sweeps.queued
      rw [queued.started]
      exact List.pairwise_lt_range
    | depthFirst => exact (orderly_of_reached reached).rising
  · rintro rfl
    obtain ⟨k, j, queued⟩ := reached.sweeps.queued
    rw [queued.started, List.length_range]
  · rintro rfl
    obtain ⟨stacked, -⟩ := stacked_of_reached reached
    refine ⟨fun q r started below unstarted => ?_, stacked.length_unstarted_le⟩
    exact (orderly_of_reached reached).skipped_of_lt stacked started below unstarted
  · rw [draw_nextState_of_run (runs_of_play played plain)]
    exact List.map_congr_left fun r _ => s.getElem?_states r

/-- Given up before its start, 1 is passed over: 2 is started after 0. -/
theorem starts_in_order_fork :
    let run := (begin fork ['a', 'b', 'c'] .depthFirst Unit).play
      [.next, .next, .next, .skipState, .next, .next]
    started (events run.1) = [0, 2] ∧ .skippedState 1 ∈ run.1 ∧
      (run.2.traversal.pending.filter fun v => !v.started).length ≤ 1 := by
  intro run
  have starts : started (events run.1) = [0, 2] := by
    cbv
  obtain ⟨-, -, deep, -⟩ := starts_in_order (h := run.1) (s := run.2) rfl
  obtain ⟨passed, alone⟩ := deep rfl
  have two : .event (.start 2) ∈ run.1 := mem_started_events.1 (by simp [starts])
  have one : .event (.start 1) ∉ run.1 := mt mem_started_events.2 (by simp [starts])
  exact ⟨starts, passed 2 1 two (by decide) one, alone⟩

end Drawing

end Search

end Exploration
