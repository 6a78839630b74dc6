import Exploration.Proofs.Traversal.History

/-!
# The blocks of a breadth-first traversal

Whatever is scheduled and skipped, and whenever, a breadth-first traversal reports the initial
states and then one block of events for each record, in the order of scheduling: the start, the
edges, the finish. Its frontier holds the records whose blocks are still to come, and at most the
first of them is under way.
-/

namespace Exploration

variable {σ ι τ δ : Type}

/-- The record an edge leaves. -/
def Event.source? : Event σ ι τ → Option RecordIndex
  | .initial _ => none
  | .start _ _ => none
  | .edge r _ _ _ => some r
  | .finish _ _ _ => none

namespace Traversal

/-- All that is reported of a record breadth-first. -/
def Block (r : RecordIndex) (es : List (Event σ ι τ)) : Prop :=
  ∃ s edges, es = .start r s :: edges ++ [.finish r s none] ∧ ∀ e ∈ edges, e.source? = some r

theorem blocks_snoc {blocks : List (List (Event σ ι τ))} {es : List (Event σ ι τ)}
    (before : ∀ r es, blocks[r]? = some es → Block r es) (last : Block blocks.length es) :
    ∀ r es', (blocks ++ [es])[r]? = some es' → Block r es' := by
  intro r es' hr
  obtain ⟨lt, -⟩ := List.getElem?_eq_some_iff.1 hr
  rw [List.length_append, List.length_singleton] at lt
  rcases Nat.lt_succ_iff_lt_or_eq.1 lt with lt | rfl
  · rw [List.getElem?_append_left lt] at hr
    exact before r es' hr
  · rw [List.getElem?_concat_length, Option.some.injEq] at hr
    exact hr ▸ last

/-- What was reported of the head of the queue, the visits behind it not being started. -/
inductive Underway : List (Visit σ ι τ RecordIndex) → List (Event σ ι τ) → Prop
  | waiting {queue : List (Visit σ ι τ RecordIndex)} (fresh : ∀ v ∈ queue, v.started = false) :
      Underway queue []
  | walked {v : Visit σ ι τ RecordIndex} {rest : List (Visit σ ι τ RecordIndex)}
      {edges : List (Event σ ι τ)} (begun : v.started = true)
      (fresh : ∀ a ∈ rest, a.started = false) (leave : ∀ e ∈ edges, e.source? = some v.label) :
      Underway (v :: rest) (.start v.label v.state :: edges)

namespace Underway

variable {v a : Visit σ ι τ RecordIndex} {queue rest : List (Visit σ ι τ RecordIndex)}
  {now : List (Event σ ι τ)}

theorem push (k : Underway queue now) (A : List ι) (r : RecordIndex) (s : σ) :
    Underway (queue ++ [.planned A r s]) now := by
  cases k with
  | waiting fresh =>
    refine .waiting fun v hv => ?_
    rcases List.mem_append.1 hv with hv | hv
    · exact fresh v hv
    · rw [List.mem_singleton.1 hv]
      rfl
  | walked begun fresh leave =>
    refine .walked begun (fun v hv => ?_) leave
    rcases List.mem_append.1 hv with hv | hv
    · exact fresh v hv
    · rw [List.mem_singleton.1 hv]
      rfl

theorem start (k : Underway (v :: rest) now) (fresh : v.started = false) :
    now = [] ∧ Underway (v.start :: rest) [.start v.label v.state] := by
  cases k with
  | waiting behind =>
    exact ⟨rfl, .walked (v := v.start) rfl (fun a ha => behind a (List.mem_cons_of_mem v ha))
      (by simp)⟩
  | walked begun => simp [fresh] at begun

/-- The head is given another place in its walk. -/
theorem turn (k : Underway (v :: rest) now) (label : a.label = v.label) (state : a.state = v.state)
    (started : a.started = v.started) : Underway (a :: rest) now := by
  cases k with
  | waiting fresh =>
    refine .waiting (List.forall_mem_cons.2 ⟨?_, fun b hb => fresh b (List.mem_cons_of_mem v hb)⟩)
    rw [started]
    exact fresh v List.mem_cons_self
  | walked begun fresh leave =>
    rw [← label, ← state]
    exact .walked (started.trans begun) fresh (by rwa [label])

theorem edge (k : Underway (v :: rest) now) (begun : v.started = true) {e : Event σ ι τ}
    (leaves : e.source? = some v.label) : Underway (v :: rest) (now ++ [e]) := by
  cases k with
  | waiting fresh => simp [fresh v List.mem_cons_self] at begun
  | walked _ fresh leave =>
    refine .walked begun fresh fun a ha => ?_
    rcases List.mem_append.1 ha with ha | ha
    · exact leave a ha
    · rw [List.mem_singleton.1 ha]
      exact leaves

theorem finish (k : Underway (v :: rest) now) (begun : v.started = true) :
    Block v.label (now ++ [.finish v.label v.state none]) ∧ Underway (ι := ι) (τ := τ) rest [] := by
  cases k with
  | waiting fresh => simp [fresh v List.mem_cons_self] at begun
  | walked _ fresh leave => exact ⟨⟨v.state, _, rfl, leave⟩, .waiting fresh⟩

/-- What is under way can be brought to a block. -/
theorem exists_block (k : Underway queue now) (ne : now ≠ []) :
    ∃ v rest, queue = v :: rest ∧ ∃ es, Block v.label es ∧ now <+: es := by
  cases k with
  | waiting => exact absurd rfl ne
  | @walked v rest edges begun fresh leave =>
    exact ⟨v, rest, rfl, _, ⟨v.state, edges, rfl, leave⟩, List.prefix_append _ _⟩

end Underway

/-- The events `evs` tell the whole of `blocks` and, of the head of `queue`, what is under way.
`unread` and the number `n` of records are those of the traversal. -/
structure Blockwise (M : TransitionSystem σ ι τ) (evs : List (Event σ ι τ)) (unread : List σ)
    (queue : List (Visit σ ι τ RecordIndex)) (n : Nat) (blocks : List (List (Event σ ι τ)))
    (now : List (Event σ ι τ)) : Prop where
  told : ∃ seen, seen ++ unread = M.initial ∧ evs = seen.map .initial ++ blocks.flatten ++ now
  block : ∀ r es, blocks[r]? = some es → Block r es
  numbers : List.range blocks.length ++ queue.map Visit.label = List.range n
  underway : Underway queue now
  /-- Nothing is started before the initial states are all reported. -/
  early : unread = [] ∨ blocks = [] ∧ now = []

namespace Blockwise

variable {M : TransitionSystem σ ι τ} {evs : List (Event σ ι τ)} {unread : List σ}
  {queue rest : List (Visit σ ι τ RecordIndex)} {v a : Visit σ ι τ RecordIndex} {n : Nat}
  {blocks : List (List (Event σ ι τ))} {now : List (Event σ ι τ)}

theorem begin : Blockwise M [] M.initial [] 0 [] [] where
  told := ⟨[], rfl, rfl⟩
  block r es h := by cases h
  numbers := rfl
  underway := .waiting (by simp)
  early := .inr ⟨rfl, rfl⟩

theorem label_of_head (k : Blockwise M evs unread (v :: rest) n blocks now) :
    v.label = blocks.length := by
  have count := congrArg List.length k.numbers
  have head := congrArg (·[blocks.length]?) k.numbers
  simp only [List.length_append, List.length_range, List.map_cons, List.length_cons,
    List.length_map] at count
  have lt : blocks.length < n := by omega
  simpa [List.getElem?_range lt] using head

theorem initial {s : σ} (k : Blockwise M evs (s :: unread) queue n blocks now) :
    Blockwise M (evs ++ [.initial s]) unread queue n blocks now := by
  obtain ⟨rfl, rfl⟩ := k.early.resolve_left (List.cons_ne_nil s unread)
  obtain ⟨seen, all, rfl⟩ := k.told
  exact ⟨⟨seen ++ [s], by simpa using all, by simp⟩, k.block, k.numbers, k.underway,
    .inr ⟨rfl, rfl⟩⟩

theorem start (k : Blockwise M evs [] (v :: rest) n blocks now) (fresh : v.started = false) :
    Blockwise M (evs ++ [.start v.label v.state]) [] (v.start :: rest) n blocks
      [.start v.label v.state] := by
  obtain ⟨rfl, underway⟩ := k.underway.start fresh
  obtain ⟨seen, all, rfl⟩ := k.told
  exact ⟨⟨seen, all, by simp⟩, k.block, k.numbers, underway, .inl rfl⟩

theorem turn (k : Blockwise M evs unread (v :: rest) n blocks now) (label : a.label = v.label)
    (state : a.state = v.state) (started : a.started = v.started) :
    Blockwise M evs unread (a :: rest) n blocks now where
  told := k.told
  block := k.block
  numbers := by
    rw [List.map_cons, label]
    exact k.numbers
  underway := k.underway.turn label state started
  early := k.early

theorem edge (k : Blockwise M evs [] (v :: rest) n blocks now) (begun : v.started = true)
    {e : Event σ ι τ} (leaves : e.source? = some v.label) :
    Blockwise M (evs ++ [e]) [] (v :: rest) n blocks (now ++ [e]) := by
  obtain ⟨seen, all, rfl⟩ := k.told
  exact ⟨⟨seen, all, by simp⟩, k.block, k.numbers, k.underway.edge begun leaves, .inl rfl⟩

theorem finish (k : Blockwise M evs [] (v :: rest) n blocks now) (begun : v.started = true) :
    Blockwise M (evs ++ [.finish v.label v.state none]) [] rest n
      (blocks ++ [now ++ [.finish v.label v.state none]]) [] := by
  obtain ⟨block, underway⟩ := k.underway.finish begun
  obtain ⟨seen, all, rfl⟩ := k.told
  have own := k.label_of_head
  refine ⟨⟨seen, all, by simp⟩, blocks_snoc k.block (own ▸ block), ?_, underway, .inl rfl⟩
  rw [← k.numbers, List.length_append, List.length_singleton, List.range_succ, List.map_cons, own,
    List.append_assoc, List.singleton_append]

theorem push (k : Blockwise M evs unread queue n blocks now) (A : List ι) (s : σ) :
    Blockwise M evs unread (queue ++ [.planned A n s]) (n + 1) blocks now where
  told := k.told
  block := k.block
  numbers := by
    rw [List.map_append, ← List.append_assoc, k.numbers, List.range_succ]
    rfl
  underway := k.underway.push A n s
  early := k.early

theorem length_of_ended (k : Blockwise M evs unread [] n blocks now) : blocks.length = n := by
  simpa using congrArg List.length k.numbers

theorem told_of_ended (k : Blockwise M evs [] [] n blocks now) :
    evs = M.initial.map .initial ++ blocks.flatten := by
  obtain ⟨seen, all, rfl⟩ := k.told
  have none : now = [] := by
    cases k.underway
    rfl
  rw [none, ← all, List.append_nil, List.append_nil]

/-- With the block under way brought to its end, the events are part of all that comes of the
initial states and the blocks. -/
theorem exists_blocks (k : Blockwise M evs unread queue n blocks now) :
    ∃ more : List (List (Event σ ι τ)), (∀ r es, (blocks ++ more)[r]? = some es → Block r es) ∧
      evs <+: M.initial.map .initial ++ (blocks ++ more).flatten := by
  obtain ⟨seen, all, rfl⟩ := k.told
  by_cases hn : now = []
  -- Between two blocks the initial states may still be coming; within one they are all told.
  · refine ⟨[], by simpa using k.block, ?_⟩
    rw [hn, List.append_nil, List.append_nil, ← all, List.map_append]
    rcases k.early with rfl | ⟨rfl, -⟩
    · simp
    · simp
  · obtain ⟨v, rest, rfl, es, block, part⟩ := k.underway.exists_block hn
    obtain rfl : unread = [] := k.early.resolve_right fun none => hn none.2
    refine ⟨[es], blocks_snoc k.block (k.label_of_head ▸ block), ?_⟩
    rw [List.append_nil] at all
    rw [all, List.flatten_append, List.flatten_singleton, List.append_assoc,
      List.prefix_append_right_inj, List.prefix_append_right_inj]
    exact part

end Blockwise

variable {M : TransitionSystem σ ι τ} {A : List ι}

/-- Breadth-first, a skip leaves every visit in its place. -/
theorem blockwise_of_reached {h : List (Report σ ι τ)} {t : Traversal M A .breadthFirst δ}
    (reached : Reached M A .breadthFirst h t) :
    ∃ blocks now, Blockwise M (events h) t.unread t.pending t.recordCount blocks now := by
  induction reached with
  | begin => exact ⟨[], [], .begin⟩
  | @move h t u x before last ih =>
    obtain ⟨blocks, now, k⟩ := ih
    rw [events_snoc]
    cases last with
    | event advance =>
      cases advance with
      | initial idle unread records pending =>
        rw [unread] at k
        rw [pending, recordCount_of_records records]
        exact ⟨blocks, now, k.initial⟩
      | start ready head fresh unread records pending =>
        have none : t.unread = [] := ready.resolve_left (by decide)
        rw [head, none] at k
        rw [pending, unread, none, recordCount_of_records records]
        exact ⟨blocks, _, k.start fresh⟩
      | edge ready head begun step unread records pending =>
        obtain ⟨-, label, state, started, -⟩ := Visit.next_of_some step
        have none : t.unread = [] := ready.resolve_left (by decide)
        rw [head, none] at k
        rw [pending, unread, none, recordCount_of_records records]
        exact ⟨blocks, _, (k.edge begun rfl).turn label state started⟩
      | finish ready head begun step unread records pending =>
        have none : t.unread = [] := ready.resolve_left (by decide)
        rw [head, none] at k
        rw [pending, unread, none, recordCount_of_records records]
        exact ⟨_, _, k.finish begun⟩
    | ended => exact ⟨blocks, now, by simpa [Report.event?] using k⟩
    | scheduled s d =>
      rw [Report.event?, Option.toList_none, List.append_nil, unread_schedule, pending_schedule,
        recordCount_schedule]
      exact ⟨blocks, now, k.push A s⟩
    | skippedLetter head unread records pending =>
      rw [head] at k
      rw [Report.event?, Option.toList_none, List.append_nil, pending, unread,
        recordCount_of_records records]
      exact ⟨blocks, now, k.turn rfl rfl rfl⟩
    | skippedState head unread records pending =>
      rw [head] at k
      rw [Report.event?, Option.toList_none, List.append_nil, pending, unread,
        recordCount_of_records records]
      exact ⟨blocks, now, k.turn rfl rfl rfl⟩
    | refused => exact ⟨blocks, now, by simpa [Report.event?] using k⟩
    | modified r change =>
      rw [Report.event?, Option.toList_none, List.append_nil, recordCount_modifyData]
      exact ⟨blocks, now, k⟩

/-- The event grammar, for every consumer. The events are the start of what the initial states and
one block for each record, in order, make up. A traversal that reports nothing has told all of it,
with a block for every record scheduled, whether its visit was skipped or not; it reports nothing
until more is scheduled, and then the next block. -/
theorem breadthFirst_blocks {ms : List (Move σ δ)} {h : List (Report σ ι τ)}
    {t : Traversal M A .breadthFirst δ} (played : (begin M A .breadthFirst δ).play ms = (h, t)) :
    ∃ blocks : List (List (Event σ ι τ)),
      (∀ r es, blocks[r]? = some es → Block r es) ∧
      events h <+: M.initial.map .initial ++ blocks.flatten ∧
      (t.next.1 = none →
        events h = M.initial.map .initial ++ blocks.flatten ∧
        (∀ r, .scheduled r ∈ h ↔ r < blocks.length) ∧
        ∀ ns, (∀ s d, .schedule s d ∉ ns) →
          events (t.play ns).1 = [] ∧
          ∀ s d, ((t.play ns).2.schedule s d).next.1 = some (.start blocks.length s)) := by
  have reached := reached_of_play played
  obtain ⟨blocks, now, k⟩ := blockwise_of_reached reached
  by_cases ended : t.next.1 = none
  · obtain ⟨unread, pending⟩ := next_eq_none_iff.1 ended
    have empty : t.pending = [] := pending
    rw [unread, empty] at k
    have told := k.told_of_ended
    refine ⟨blocks, k.block, told ▸ List.prefix_refl _, fun _ => ⟨told, fun r => ?_, ?_⟩⟩
    · rw [k.length_of_ended]
      exact reached.scheduled_iff r
    · intro ns calm
      obtain ⟨silent, unread', pending', count⟩ := play_idle calm unread empty
      refine ⟨silent, fun s d => ?_⟩
      rw [next_schedule unread' pending', count, k.length_of_ended]
  · obtain ⟨more, block, part⟩ := k.exists_blocks
    exact ⟨blocks ++ more, block, part, fun none => absurd none ended⟩

/-- A skip before the first event leaves a record its start and finish. After the end, what is
scheduled is the next record. -/
theorem breadthFirst_blocks_relay :
    ∃ t, (begin relay ['a'] .breadthFirst Unit).play
        [.schedule 0 (), .skipState, .next, .next, .next, .next] =
          ([.scheduled 0, .skippedState 0, .event (.initial 0), .event (.initial 3),
            .event (.start 0 0), .event (.finish 0 0 none)], t) ∧
      t.next.1 = none ∧ (t.schedule 1 ()).next.1 = some (.start 1 1) := by
  obtain ⟨t, played, ended⟩ : ∃ t, (begin relay ['a'] .breadthFirst Unit).play
      [.schedule 0 (), .skipState, .next, .next, .next, .next] =
        ([.scheduled 0, .skippedState 0, .event (.initial 0), .event (.initial 3),
          .event (.start 0 0), .event (.finish 0 0 none)], t) ∧ t.next.1 = none :=
    ⟨_, rfl, rfl⟩
  obtain ⟨blocks, -, -, whole⟩ := breadthFirst_blocks played
  obtain ⟨-, scheduled, later⟩ := whole ended
  have one : blocks.length = 1 := by
    have first := (scheduled 0).1 (by decide)
    have second := mt (scheduled 1).2 (by decide)
    omega
  obtain ⟨-, next⟩ := later [] (by simp)
  rw [one] at next
  exact ⟨t, played, ended, next 1 ()⟩

end Traversal

end Exploration
