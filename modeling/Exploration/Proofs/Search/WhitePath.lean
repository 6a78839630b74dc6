import Exploration.Proofs.Search.EdgeKind
import Exploration.Proofs.Search.Inheritance

/-!
# White paths

Which states a depth-first search finds below a record is settled when the record is started. They
are those to which a path leads through states not met before: when the record finishes, all that
was met since then descends from it and has shown all its edges, so such a path cannot get out of
the descendants; and the tree edges to a descendant are such a path.
-/

namespace Exploration

/-- A path of at least one transition on which every state but the first is new. -/
inductive TransitionSystem.FreshPath {σ ι τ : Type} (M : TransitionSystem σ ι τ) (A : List ι)
    (new : σ → Prop) (s : σ) : σ → Prop
  | edge {i : ι} {x : τ} : i ∈ A → x ∈ M.transitions s i → new (M.successor x) →
      FreshPath M A new s (M.successor x)
  | snoc {t : σ} {i : ι} {x : τ} : FreshPath M A new s t → i ∈ A → x ∈ M.transitions t i →
      new (M.successor x) → FreshPath M A new s (M.successor x)

namespace Search

variable {σ ι τ : Type} {M : TransitionSystem σ ι τ} {A : List ι} {o : Order}
  {evs : List (Event ι τ)} {w w' : View σ ι τ} {u v r : RecordIndex}

theorem ancestor_events {h : List (Report ι τ)} :
    Ancestor ((events h).map .event) u v ↔ Ancestor h u v := by
  have same : Parent ((events h).map .event) = Parent h := by
    funext a b
    simp [Parent, mem_events]
  rw [Ancestor, Ancestor, same]

namespace View

theorem Runs.start_notMem (run : Runs M A .depthFirst evs w) {a : Visit σ ι τ RecordIndex}
    (ha : a ∈ w.pending) (fresh : a.started = false) : .start a.label ∉ evs := by
  obtain ⟨k, -⟩ := stacked_of_reached run.reached
  intro start
  have begun := (k.started (a.label, a.started) (List.mem_map_of_mem ha)).2 (by simpa using start)
  simp [fresh] at begun

/-- A record that waits for its start at the head of the stack is the last one. -/
theorem Runs.length_of_fresh (run : Runs M A .depthFirst evs w) {a : Visit σ ι τ RecordIndex}
    {rest : List (Visit σ ι τ RecordIndex)} (head : w.pending = a :: rest)
    (fresh : a.started = false) : w.states.length = a.label + 1 := by
  obtain ⟨k, -⟩ := stacked_of_reached run.reached
  rw [outline_of_cons head] at k
  have bound : a.label + 1 ≤ w.states.length := k.bounded a.label List.mem_cons_self
  by_contra more
  have lt : a.label + 1 < w.states.length := Nat.lt_of_le_of_ne bound (Ne.symm more)
  have anc := k.above a.label List.mem_cons_self (a.label + 1) (Nat.lt_succ_self _) lt
  -- The record above it would be its descendant, but it has no child before its start.
  obtain ⟨c, ⟨i, x, edge⟩, -⟩ := Relation.TransGen.head'_iff.1 anc
  have start := run.recounts.start_mem (by simpa using edge) rfl
  exact run.start_notMem (head ▸ List.mem_cons_self) fresh start

/-- Tree edges make a fresh path if every record above `u` has a new state. -/
theorem Runs.freshPath_of_ancestor (run : Runs M A .depthFirst evs w) {new : σ → Prop} {s : σ}
    (hs : w.states[u]? = some s) (fresh : ∀ r t, u < r → w.states[r]? = some t → new t)
    (anc : Ancestor (evs.map .event) u v) :
    ∃ t, w.states[v]? = some t ∧ M.FreshPath A new s t := by
  obtain ⟨k, -⟩ := stacked_of_reached run.reached
  have step {a b : RecordIndex} (parent : Parent (evs.map .event) a b) : ∃ t i x,
      w.states[a]? = some t ∧ i ∈ A ∧ x ∈ M.transitions t i ∧
        w.states[b]? = some (M.successor x) := by
    obtain ⟨i, x, he⟩ := parent
    obtain ⟨t, ht, hx, hb⟩ := run.recounts.edge_sound (by simpa using he)
    obtain ⟨hi, hx⟩ := TransitionSystem.mem_outgoing.1 hx
    exact ⟨t, i, x, ht, hi, hx, hb⟩
  induction anc with
  | single parent =>
    obtain ⟨t, i, x, ht, hi, hx, hb⟩ := step parent
    obtain rfl : t = s := Option.some.inj (ht.symm.trans hs)
    exact ⟨_, hb, .edge hi hx (fresh _ _ (k.parent_lt _ _ parent).1 hb)⟩
  | tail anc parent ih =>
    obtain ⟨t, i, x, ht, hi, hx, hb⟩ := step parent
    obtain ⟨t', ht', path⟩ := ih
    obtain rfl : t' = t := Option.some.inj (ht'.symm.trans ht)
    have above := Nat.lt_trans (k.ancestor_lt anc) (k.parent_lt _ _ parent).1
    exact ⟨_, hb, .snoc path hi hx (fresh _ _ above hb)⟩

/-- When `u` finishes, a fresh path from its state has not left its descendants. -/
theorem Runs.ancestor_of_freshPath (run : Runs M A .depthFirst evs w)
    {b : Option (Backtrack ι τ)} (adv : w.Advances M A .depthFirst (.finish u b) w')
    {new : σ → Prop} {s t : σ} (hs : w.states[u]? = some s)
    (old : ∀ r t, r ≤ u → w.states[r]? = some t → ¬ new t) (path : M.FreshPath A new s t) :
    ∃ r, w.states[r]? = some t ∧ Ancestor (evs.map .event) u r := by
  obtain ⟨k, -⟩ := stacked_of_reached run.reached
  have after := (run.event adv).recounts
  cases adv with
  | @finish a a' rest ready head begun step =>
    rw [outline_of_cons head] at k
    -- Records from `u` on are off the stack, hence the successors of their states were met.
    have closed {r : RecordIndex} {t : σ} {i : ι} {x : τ} (hr : a.label ≤ r)
        (ht : w.states[r]? = some t) (hi : i ∈ A) (hx : x ∈ M.transitions t i)
        (hn : new (M.successor x)) :
        ∃ q, a.label < q ∧ w.states[q]? = some (M.successor x) := by
      have gone : r ∉ rest.map Visit.label := by
        intro hm
        have below : r < a.label := by
          apply List.rel_of_pairwise_cons k.sorted
          simpa [outline, withPending] using hm
        exact Nat.not_lt_of_le hr below
      have follows := after.follows_told (r := r) ht gone
      obtain ⟨q, hq⟩ := List.mem_iff_getElem?.1
        (follows.met (TransitionSystem.mem_outgoing.2 ⟨hi, hx⟩))
      refine ⟨q, ?_, hq⟩
      by_contra low
      exact old q _ (Nat.le_of_not_lt low) hq hn
    suffices above : ∃ r, a.label < r ∧ w.states[r]? = some t by
      obtain ⟨r, hr, ht⟩ := above
      exact ⟨r, ht, k.above a.label List.mem_cons_self r hr (List.getElem?_eq_some_iff.1 ht).1⟩
    induction path with
    | edge hi hx hn => exact closed (Nat.le_refl _) hs hi hx hn
    | snoc path hi hx hn ih =>
      obtain ⟨r, hr, ht⟩ := ih
      exact closed (Nat.le_of_lt hr) ht hi hx hn

/-- The events before the second of two are at least those up to the first, if that comes
earlier. -/
theorem exists_append_of_notMem {α : Type} {l l' r r' : List α} {a : α}
    (h : l ++ r = l' ++ a :: r') (ha : a ∉ l) : ∃ more, l' = l ++ more := by
  rcases List.append_eq_append_iff.1 h with ⟨more, hl, -⟩ | ⟨more, hl, hr⟩
  · exact ⟨more, hl⟩
  · cases more with
    | nil => exact ⟨[], by simpa using hl.symm⟩
    | cons c more =>
      obtain ⟨rfl, -⟩ := List.cons.inj hr
      exact absurd (by simp [hl]) ha

/-- What finishes after it was started in the view `w` has those states below it to which fresh
paths led then. -/
theorem Runs.ancestor_iff_freshPath (run : Runs M A .depthFirst evs w)
    {a : Visit σ ι τ RecordIndex} {rest : List (Visit σ ι τ RecordIndex)}
    (head : w.pending = a :: rest) (fresh : a.started = false) {more : List (Event ι τ)}
    (run' : Runs M A .depthFirst (evs ++ more) w') {b : Option (Backtrack ι τ)}
    (finished : .finish a.label b ∈ evs ++ more) (t : σ) :
    (∃ v, w'.states[v]? = some t ∧ Ancestor ((evs ++ more).map .event) a.label v) ↔
      M.FreshPath A (· ∉ w.states) a.state t := by
  have met : w.states[a.label]? = some a.state :=
    run.recounts.met a (head ▸ List.mem_cons_self)
  have length := run.length_of_fresh head fresh
  constructor
  · rintro ⟨v, hv, anc⟩
    have above (r : RecordIndex) (t : σ) (lt : a.label < r) (ht : w'.states[r]? = some t) :
        t ∉ w.states := by
      intro old
      obtain ⟨q, hq⟩ := List.mem_iff_getElem?.1 old
      obtain rfl := run'.recounts.record_unique (run.states_append run' hq) ht
      have bound : q < w.states.length := (List.getElem?_eq_some_iff.1 hq).1
      rw [length] at bound
      exact Nat.not_lt_of_le (Nat.le_of_lt_succ bound) lt
    obtain ⟨t', ht', path⟩ := run'.freshPath_of_ancestor (run.states_append run' met) above anc
    obtain rfl : t' = t := Option.some.inj (ht'.symm.trans hv)
    exact path
  · intro path
    obtain ⟨first, last, w₁, w₂, split, run₁, adv⟩ := run'.split finished
    have unfinished : .finish a.label b ∉ evs := fun mem =>
      run.start_notMem (head ▸ List.mem_cons_self) fresh (run.recounts.start_mem mem rfl)
    obtain ⟨between, rfl⟩ := exists_append_of_notMem split unfinished
    have below (r : RecordIndex) (t : σ) (le : r ≤ a.label) (ht : w₁.states[r]? = some t) :
        ¬ t ∉ w.states := by
      have bound : r < w.states.length := by
        rw [length]
        exact Nat.lt_succ_of_le le
      have kept := run.states_append run₁ (List.getElem?_eq_getElem bound)
      obtain rfl := Option.some.inj (ht.symm.trans kept)
      simp
    obtain ⟨v, hv, anc⟩ := run₁.ancestor_of_freshPath adv (run.states_append run₁ met) below path
    rw [split] at run' ⊢
    refine ⟨v, run₁.states_append run' hv, ?_⟩
    rw [List.map_append]
    exact anc.append

end View

variable {δ : Type} [DecidableEq σ] [Hashable σ] [Inhabited δ]

/-- A reported event is the answer to one of the calls. -/
theorem exists_next_of_mem {s : Search M A o δ} {ms : List (Move δ)} {e : Event ι τ}
    (he : .event e ∈ (s.play ms).1) :
    ∃ ms₁ ms₂ s', ms = ms₁ ++ .next :: ms₂ ∧ (s.play ms₁).2.next = (some e, s') := by
  induction ms generalizing s with
  | nil => simp [play] at he
  | cons m ms ih =>
    rcases List.mem_cons.1 he with he | he
    · cases m with
      | next =>
        cases hn : s.next with
        | mk e' s' =>
          cases e' with
          | none => simp [perform, hn] at he
          | some e' =>
            obtain rfl : e = e' := by simpa [perform, hn] using he
            exact ⟨[], ms, s', rfl, hn⟩
      | skipLetter =>
        rw [perform] at he
        split at he <;> cases he
      | skipState =>
        rw [perform] at he
        split at he <;> cases he
      | modifyData r change => cases he
    · obtain ⟨ms₁, ms₂, s', rfl, hn⟩ := ih he
      exact ⟨m :: ms₁, ms₂, s', rfl, hn⟩

/-- Once a record is finished, a state is below it exactly if a path led there, when the record
was started, through states without a record. -/
theorem depthFirst_white_path {ms : List (Move δ)} {h : List (Report ι τ)}
    {t : Search M A .depthFirst δ} {b : Option (Backtrack ι τ)}
    (hp : (begin M A .depthFirst δ).play ms = (h, t))
    (plain : ∀ m ∈ ms, m ≠ .skipLetter ∧ m ≠ .skipState) (hf : .event (.finish u b) ∈ h) :
    (∃ ms₁ ms₂ s', ms = ms₁ ++ .next :: ms₂ ∧
      ((begin M A .depthFirst δ).play ms₁).2.next = (some (.start u), s')) ∧
    ∀ ms₁ ms₂ before s s', ms = ms₁ ++ .next :: ms₂ →
      (begin M A .depthFirst δ).play ms₁ = (before, s) → s.next = (some (.start u), s') →
      ∃ x, s.states[u]? = some x ∧ ∀ y, (∃ v, t.find? y = some v ∧ Ancestor h u v) ↔
        M.FreshPath A (s.find? · = none) x y := by
  have run := runs_of_play hp plain
  have finished : .finish u b ∈ events h := mem_events.2 hf
  constructor
  · apply exists_next_of_mem
    rw [hp]
    exact mem_events.1 (run.recounts.start_mem finished rfl)
  · rintro ms₁ ms₂ before s s' rfl hb hn
    obtain ⟨c, -⟩ := reached_of_play hb
    obtain ⟨ct, -⟩ := reached_of_play hp
    have run₁ := runs_of_play hb fun m hm => plain m (List.mem_append_left _ hm)
    have history : h = before ++ (s.play (.next :: ms₂)).1 := by
      have all := hp
      rw [play_append, hb] at all
      exact (congrArg Prod.fst all).symm
    have told : events h = events before ++ events (s.play (.next :: ms₂)).1 := by
      rw [history]
      exact List.filterMap_append ..
    rw [told] at run finished
    obtain ⟨-, adv⟩ := c.advances hn
    obtain ⟨a, rest, head, fresh, rfl⟩ := adv.start_cases
    have law := run₁.ancestor_iff_freshPath head fresh run finished
    rw [← told] at law
    have unmet : (s.find? · = none) = (· ∉ s.states) :=
      funext fun z => propext c.find_eq_none_iff
    have ha : a ∈ s.view.pending := head ▸ List.mem_cons_self
    refine ⟨a.state, c.pending a ha, fun y => ?_⟩
    simp only [unmet, ct.find, ← ancestor_events (h := h)]
    exact law y

/-- When 0 was started in the fork, 2 was new and so was 1 behind it. -/
theorem depthFirst_white_path_fork :
    let run := (begin fork ['a', 'b', 'c'] .depthFirst Unit).play (.replicate 11 .next)
    let first := (begin fork ['a', 'b', 'c'] .depthFirst Unit).play [.next]
    fork.FreshPath ['a', 'b', 'c'] (first.2.find? · = none) 0 1 ∧
      ∃ v, run.2.find? 1 = some v ∧ Ancestor run.1 0 v := by
  intro run first
  have last : run.1[10]? = some (.event (.finish 0 none)) := by cbv
  have start : first.2.next.1 = some (.start 0) := by cbv
  have state : first.2.states[0]? = some 0 := by cbv
  have new : first.2.find? 2 = none ∧ first.2.find? 1 = none := ⟨by cbv, by cbv⟩
  have path : fork.FreshPath ['a', 'b', 'c'] (first.2.find? · = none) 0 2 :=
    .edge (i := 'b') (x := 1) (by decide) (by decide) new.1
  have further : fork.FreshPath ['a', 'b', 'c'] (first.2.find? · = none) 0 1 :=
    path.snoc (i := 'a') (x := 2) (by decide) (by decide) new.2
  obtain ⟨-, law⟩ := depthFirst_white_path (h := run.1) (t := run.2) rfl (by simp)
    (List.mem_of_getElem? last)
  obtain ⟨x, hx, below⟩ := law [.next] (.replicate 9 .next) _ first.2 first.2.next.2 rfl rfl
    (Prod.ext start rfl)
  obtain rfl : x = 0 := Option.some.inj (hx.symm.trans state)
  exact ⟨further, (below 1).2 further⟩

end Search

end Exploration
