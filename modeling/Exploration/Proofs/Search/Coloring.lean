import Mathlib.Data.List.Permutation
import Exploration.Proofs.Search.Forest
import Exploration.Proofs.Search.Queue
import Exploration.Proofs.Traversal.History

/-!
# Colors and histories

The color of a record is a summary of what was reported of it. Depth-first it tells whether the
record was started and whether it was finished; breadth-first a cross edge counts like a start.
Nothing else changes a color, so colors only move forward, and a record that was given up
depth-first keeps the one it had.
-/

namespace Exploration.Search

variable {σ ι τ : Type}

def Finished (h : List (Report ι τ)) (r : RecordIndex) : Prop := ∃ b, .event (.finish r b) ∈ h

/-- A cross edge leads to `r`. -/
def Crossed (h : List (Report ι τ)) (r : RecordIndex) : Prop :=
  ∃ u i x, .event (.edge .cross u i x r) ∈ h

/-- The record was reported in a way that ends its being white. -/
def Touched (o : Order) (h : List (Report ι τ)) (r : RecordIndex) : Prop :=
  .event (.start r) ∈ h ∨ o = .breadthFirst ∧ Crossed h r

theorem finished_snoc {h : List (Report ι τ)} {y : Report ι τ} {r : RecordIndex} :
    Finished (h ++ [y]) r ↔ Finished h r ∨ ∃ b, y = .event (.finish r b) := by
  simp [Finished, exists_or, eq_comm]

theorem touched_snoc {o : Order} {h : List (Report ι τ)} {y : Report ι τ} {r : RecordIndex} :
    Touched o (h ++ [y]) r ↔ Touched o h r ∨ y = .event (.start r) ∨
      o = .breadthFirst ∧ ∃ u i x, y = .event (.edge .cross u i x r) := by
  simp only [Touched, Crossed, List.mem_append, List.mem_singleton, exists_or, and_or_left,
    eq_comm (b := y)]
  exact or_or_or_comm

namespace View

variable {w : View σ ι τ} {r q : RecordIndex} {c : Color}

theorem color_paint_eq_white_iff (hc : c ≠ .white) :
    (w.paint r c).color q = .white ↔ q ≠ r ∧ w.color q = .white := by
  by_cases hq : q = r
  · cases hw : w.color q <;> cases c <;> simp_all [paint, Color.advance, Color.rank]
  · simp [paint, hq]

theorem color_paint_gray_eq_black_iff :
    (w.paint r .gray).color q = .black ↔ w.color q = .black := by
  by_cases hq : q = r
  · cases hw : w.color q <;> simp_all [paint, Color.advance, Color.rank]
  · simp [paint, hq]

theorem color_paint_black_eq_black_iff :
    (w.paint r .black).color q = .black ↔ q = r ∨ w.color q = .black := by
  by_cases hq : q = r
  · cases hw : w.color q <;> simp_all [paint, Color.advance, Color.rank]
  · simp [paint, hq]

/-- Colors move forward whatever is painted. -/
theorem rank_color_le_paint : (w.color q).rank ≤ ((w.paint r c).color q).rank := by
  simp only [paint]
  split
  · exact Color.rank_le_advance _ _
  · exact Nat.le_refl _

end View

/-- The started visits pending in `w'` were started and pending in `w`. -/
def View.Continues (w w' : View σ ι τ) : Prop :=
  ∀ a ∈ w'.pending, a.started = true → ∃ v ∈ w.pending, v.started = true ∧ v.label = a.label

namespace View.Continues

variable {w w' : View σ ι τ} {v a : Visit σ ι τ RecordIndex}
  {rest : List (Visit σ ι τ RecordIndex)}

theorem of_subset (h : w'.pending ⊆ w.pending) : w.Continues w' :=
  fun a ha begun => ⟨a, h ha, begun, rfl⟩

theorem head (head : w.pending = v :: rest) (after : w'.pending = a :: rest)
    (label : a.label = v.label) (started : a.started = v.started) : w.Continues w' := by
  intro b hb begun
  rw [after] at hb
  rw [head]
  rcases List.mem_cons.1 hb with rfl | hb
  · exact ⟨v, List.mem_cons_self, started.symm.trans begun, label.symm⟩
  · exact ⟨b, List.mem_cons_of_mem v hb, begun, rfl⟩

/-- A new visit is not started. -/
theorem enter (c : w.Continues w') (A : List ι) (o : Order) (t : σ) :
    w.Continues (w'.enter A o t) := by
  intro b hb begun
  rcases Order.mem_place.1 hb with rfl | hb
  · cases begun
  · exact c b hb begun

end View.Continues

/-- The colors of the view `w` are those that the history `h` gives. -/
structure Colored (o : Order) (h : List (Report ι τ)) (w : View σ ι τ) : Prop where
  black_iff : ∀ r, w.color r = .black ↔ Finished h r
  white_iff : ∀ r, w.color r = .white ↔ ¬ Touched o h r
  begun : ∀ v ∈ w.pending, v.started = true → .event (.start v.label) ∈ h

namespace Colored

variable {o : Order} {h : List (Report ι τ)} {w w' : View σ ι τ} {y : Report ι τ}
  {v : Visit σ ι τ RecordIndex} {rest : List (Visit σ ι τ RecordIndex)}

theorem gray_iff (k : Colored o h w) (r : RecordIndex) :
    w.color r = .gray ↔ ¬ Finished h r ∧ Touched o h r := by
  have black := k.black_iff r
  have white := k.white_iff r
  cases hc : w.color r <;> simp_all

theorem touched_of_finished (k : Colored o h w) {r : RecordIndex} (finished : Finished h r) :
    Touched o h r := by
  by_contra untouched
  have black := (k.black_iff r).2 finished
  have white := (k.white_iff r).2 untouched
  rw [black] at white
  cases white

theorem begin {M : TransitionSystem σ ι τ} : Colored o ([] : List (Report ι τ)) (View.begin M) where
  black_iff := by simp [View.begin, Finished]
  white_iff := by simp [View.begin, Touched, Crossed]
  begun := by simp [View.begin]

theorem begun_snoc (k : Colored o h w) (c : w.Continues w') :
    ∀ a ∈ w'.pending, a.started = true → .event (.start a.label) ∈ h ++ [y] := by
  intro a ha begun
  obtain ⟨v, hv, started, label⟩ := c a ha begun
  rw [← label]
  exact List.mem_append_left [y] (k.begun v hv started)

/-- A report that starts and finishes no record, and crosses to none. -/
theorem quiet (k : Colored o h w) (c : w.Continues w') (color : w'.color = w.color)
    (starts : ∀ r, y ≠ .event (.start r)) (finishes : ∀ r b, y ≠ .event (.finish r b))
    (crosses : o = .breadthFirst → ∀ u i x r, y ≠ .event (.edge .cross u i x r)) :
    Colored o (h ++ [y]) w' where
  black_iff r := by
    rw [color, k.black_iff, finished_snoc]
    simp [finishes r]
  white_iff r := by
    rw [color, k.white_iff, touched_snoc]
    have none : ¬ (o = .breadthFirst ∧ ∃ u i x, y = .event (.edge .cross u i x r)) := by
      rintro ⟨wide, u, i, x, hy⟩
      exact crosses wide u i x r hy
    simp [starts r, none]
  begun := k.begun_snoc c

theorem start (k : Colored o h w) (head : w.pending = v :: rest) :
    Colored o (h ++ [.event (.start v.label)])
      ((w.withPending (v.start :: rest)).paint v.label .gray) where
  black_iff r := by
    rw [View.color_paint_gray_eq_black_iff, finished_snoc, View.withPending, k.black_iff]
    simp
  white_iff r := by
    rw [View.color_paint_eq_white_iff (by decide), touched_snoc, View.withPending, k.white_iff]
    simp [and_comm, eq_comm]
  begun a ha begun := by
    rcases List.mem_cons.1 ha with rfl | ha
    · exact List.mem_append_right h List.mem_cons_self
    · exact List.mem_append_left _ (k.begun a (head ▸ List.mem_cons_of_mem v ha) begun)

/-- Breadth-first an edge to a white record crosses to it and makes it gray. -/
theorem cross (k : Colored .breadthFirst h w) (c : w.Continues w') (color : w'.color = w.color)
    (u r : RecordIndex) (i : ι) (x : τ) :
    Colored .breadthFirst (h ++ [.event (.edge .cross u i x r)]) (w'.paint r .gray) where
  black_iff q := by
    rw [View.color_paint_gray_eq_black_iff, finished_snoc, color, k.black_iff]
    simp
  white_iff q := by
    rw [View.color_paint_eq_white_iff (by decide), touched_snoc, color, k.white_iff]
    simp [and_comm, eq_comm]
  begun := k.begun_snoc c

/-- What is finished was started, so it was not white. -/
theorem finish (k : Colored o h w) (head : w.pending = v :: rest) (begun : v.started = true)
    (b : Option (Backtrack ι τ)) :
    Colored o (h ++ [.event (.finish v.label b)])
      ((w.withPending rest).paint v.label .black) where
  black_iff r := by
    rw [View.color_paint_black_eq_black_iff, finished_snoc, View.withPending, k.black_iff]
    simp [or_comm, eq_comm]
  white_iff r := by
    have touched : Touched o h v.label := .inl (k.begun v (head ▸ List.mem_cons_self) begun)
    rw [View.color_paint_eq_white_iff (by decide), touched_snoc, View.withPending, k.white_iff]
    simp only [reduceCtorEq, Report.event.injEq, exists_false, and_false, or_false,
      and_iff_right_iff_imp]
    rintro untouched rfl
    exact untouched touched
  begun := k.begun_snoc (.of_subset (head ▸ List.subset_cons_self v rest))

theorem edge (k : Colored o h w) (c : w.Continues w') (color : w'.color = w.color)
    (u r : RecordIndex) (i : ι) (x : τ) :
    Colored o (h ++ [.event (.edge (w.kindOf o u r) u i x r)]) (w'.note o r) := by
  rw [View.note, color]
  split
  · next white =>
    obtain ⟨rfl, white⟩ := white
    rw [View.kindOf_eq_cross_iff_white.2 white]
    exact k.cross c color u r i x
  · next other =>
    refine k.quiet c color (by simp) (by simp) ?_
    rintro rfl u' i' x' r' he
    simp only [Report.event.injEq, Event.edge.injEq] at he
    exact other ⟨rfl, View.kindOf_eq_cross_iff_white.1 he.1⟩

end Colored

/-- The colors of a search tell its history. -/
theorem colored_of_reached {M : TransitionSystem σ ι τ} {A : List ι} {o : Order}
    {h : List (Report ι τ)} {w : View σ ι τ} (reached : View.Reached M A o h w) :
    Colored o h w := by
  induction reached with
  | begin => exact .begin
  | @move h w w' y before last k =>
    have same : w.Continues w := .of_subset (List.Subset.refl _)
    cases last with
    | event advance =>
      cases advance with
      | known idle unread met => exact k.quiet same rfl (by simp) (by simp) (by simp)
      | root idle unread new =>
        exact k.quiet (same.enter A o _) rfl (by simp) (by simp) (by simp)
      | start ready head fresh => exact k.start head
      | @tree v v' rest i x ready head begun step new =>
        obtain ⟨-, label, -, started, -⟩ := Visit.next_of_some step
        have on : w.Continues (w.withPending (v' :: rest)) := .head head rfl label started
        exact k.quiet (on.enter A o _) rfl (by simp) (by simp) (by simp)
      | @edge v v' rest i x r ready head begun step met =>
        obtain ⟨-, label, -, started, -⟩ := Visit.next_of_some step
        have on : w.Continues (w.withPending (v' :: rest)) := .head head rfl label started
        exact k.edge on rfl v.label r i x
      | finish ready head begun step => exact k.finish head begun _
    | ended unread pending => exact k.quiet same rfl (by simp) (by simp) (by simp)
    | @skippedLetter v rest head =>
      exact k.quiet (.head (a := v.skipLetter) head rfl rfl rfl) rfl (by simp) (by simp) (by simp)
    | @skippedState v rest head =>
      have on : w.Continues (w.withPending (o.giveUp v rest)) := by
        cases o with
        | breadthFirst => exact .head (a := v.skipAll) head rfl rfl rfl
        | depthFirst => exact .of_subset (head ▸ List.subset_cons_self v rest)
      exact k.quiet on rfl (by simp) (by simp) (by simp)
    | refused pending => exact k.quiet same rfl (by simp) (by simp) (by simp)
    | modified => exact k.quiet same rfl (by simp) (by simp) (by simp)

section Later

variable {M : TransitionSystem σ ι τ} {A : List ι} {o : Order} {h : List (Report ι τ)}
  {w w' : View σ ι τ} {y : Report ι τ}

/-- No call moves a color back. -/
theorem View.Moves.rank_color_le (m : w.Moves M A o y w') (r : RecordIndex) :
    (w.color r).rank ≤ (w'.color r).rank := by
  cases m with
  | event advance =>
    cases advance with
    | known idle unread met => exact Nat.le_refl _
    | root idle unread new => exact Nat.le_refl _
    | start ready head fresh => exact rank_color_le_paint (w := w.withPending _)
    | tree ready head begun step new => exact Nat.le_refl _
    | edge ready head begun step met =>
      rw [note]
      split
      · exact rank_color_le_paint (w := w.withPending _)
      · exact Nat.le_refl _
    | finish ready head begun step => exact rank_color_le_paint (w := w.withPending _)
  | ended unread pending => exact Nat.le_refl _
  | skippedLetter head => exact Nat.le_refl _
  | skippedState head => exact Nat.le_refl _
  | refused pending => exact Nat.le_refl _
  | modified => exact Nat.le_refl _

/-- A visit that is pending after a call was pending before, or is of a new record. -/
theorem View.Moves.label_cases (m : w.Moves M A o y w') :
    ∀ a ∈ w'.pending, a.label ∈ w.pending.map Visit.label ∨ w.states.length ≤ a.label := by
  have old {v : Visit σ ι τ RecordIndex} (hv : v ∈ w.pending) :
      v.label ∈ w.pending.map Visit.label := List.mem_map_of_mem hv
  -- The visit at the head may go on as `b`; those behind it stay.
  have step {v b : Visit σ ι τ RecordIndex} {rest : List (Visit σ ι τ RecordIndex)}
      (head : w.pending = v :: rest) (label : b.label = v.label) :
      ∀ a ∈ b :: rest, a.label ∈ w.pending.map Visit.label := by
    intro a ha
    rcases List.mem_cons.1 ha with rfl | ha
    · rw [label]
      exact old (head ▸ List.mem_cons_self)
    · exact old (head ▸ List.mem_cons_of_mem v ha)
  intro a ha
  cases m with
  | event advance =>
    cases advance with
    | known idle unread met => exact .inl (old ha)
    | root idle unread new =>
      rcases Order.mem_place.1 ha with rfl | ha
      · exact .inr (Nat.le_refl _)
      · exact .inl (old ha)
    | start ready head fresh => exact .inl (step head (b := Visit.start _) rfl a ha)
    | tree ready head begun next new =>
      rcases Order.mem_place.1 ha with rfl | ha
      · exact .inr (Nat.le_refl _)
      · exact .inl (step head (Visit.next_of_some next).2.1 a ha)
    | edge ready head begun next met =>
      rw [pending_note] at ha
      exact .inl (step head (Visit.next_of_some next).2.1 a ha)
    | finish ready head begun next => exact .inl (old (head ▸ List.mem_cons_of_mem _ ha))
  | ended unread pending => exact .inl (old ha)
  | skippedLetter head => exact .inl (step head (b := Visit.skipLetter _) rfl a ha)
  | skippedState head =>
    cases o with
    | breadthFirst => exact .inl (step head (b := Visit.skipAll _) rfl a ha)
    | depthFirst => exact .inl (old (head ▸ List.mem_cons_of_mem _ ha))
  | refused pending => exact .inl (old ha)
  | modified => exact .inl (old ha)

/-- Depth-first only the record at the head of the stack changes its color. -/
theorem View.Moves.color_eq (m : w.Moves M A .depthFirst y w') {r : RecordIndex}
    (gone : r ∉ w.pending.map Visit.label) : w'.color r = w.color r := by
  have apart {v : Visit σ ι τ RecordIndex} {rest : List (Visit σ ι τ RecordIndex)}
      (head : w.pending = v :: rest) : r ≠ v.label := by
    rintro rfl
    exact gone (head ▸ List.mem_map_of_mem List.mem_cons_self)
  cases m with
  | event advance =>
    cases advance with
    | known idle unread met => rfl
    | root idle unread new => rfl
    | start ready head fresh => exact if_neg (apart head)
    | tree ready head begun next new => rfl
    | edge ready head begun next met => rw [note_depthFirst]; rfl
    | finish ready head begun next => exact if_neg (apart head)
  | ended unread pending => rfl
  | skippedLetter head => rfl
  | skippedState head => rfl
  | refused pending => rfl
  | modified => rfl

/-- The record is gone: it was created and no visit of it is pending. -/
def View.Gone (w : View σ ι τ) (r : RecordIndex) : Prop :=
  r < w.states.length ∧ r ∉ w.pending.map Visit.label

theorem View.Moves.gone (m : w.Moves M A o y w') {r : RecordIndex} (h : w.Gone r) :
    w'.Gone r := by
  obtain ⟨met, gone⟩ := h
  refine ⟨Nat.lt_of_lt_of_le met m.states_prefix.length_le, ?_⟩
  intro hr
  obtain ⟨a, ha, rfl⟩ := List.mem_map.1 hr
  rcases m.label_cases a ha with old | new
  · exact gone old
  · exact Nat.not_lt_of_le new met

/-- What was given up depth-first is gone. -/
theorem gone_of_skippedState {r : RecordIndex} (reached : View.Reached M A .depthFirst h w)
    (hr : .skippedState r ∈ h) : w.Gone r := by
  induction reached with
  | begin => cases hr
  | @move h w w' y before last ih =>
    rcases List.mem_append.1 hr with hr | hr
    · exact last.gone (ih hr)
    · obtain rfl := List.mem_singleton.1 hr
      obtain ⟨stacked, -⟩ := stacked_of_reached before
      cases last with
      | @skippedState v rest head =>
        rw [View.outline_of_cons head] at stacked
        refine ⟨stacked.bounded v.label List.mem_cons_self, ?_⟩
        simpa [View.outline, View.withPending, Order.giveUp] using stacked.head_notMem

end Later

variable {δ : Type} [DecidableEq σ] [Hashable σ] [Inhabited δ] {M : TransitionSystem σ ι τ}
  {A : List ι} {o : Order}

/-- What every call keeps is kept by all of them. -/
theorem Coherent.play_keeps {P : View σ ι τ → Prop} {s : Search M A o δ} (c : s.Coherent)
    (keeps : ∀ w y w', w.Moves M A o y w' → P w → P w') (hs : P s.view) (ms : List (Move δ)) :
    P (s.play ms).2.view := by
  induction ms generalizing s with
  | nil => exact hs
  | cons m ms ih =>
    obtain ⟨cm, move⟩ := c.perform m
    exact ih cm (keeps _ _ _ move hs)

/-- The color of a record is read off the history, whatever was skipped. It never moves back, and
a record given up depth-first keeps the color it had. -/
theorem color_iff_history {before after : List (Move δ)} {h h' : List (Report ι τ)}
    {s s' : Search M A o δ} (hb : (begin M A o δ).play before = (h, s))
    (ha : s.play after = (h', s')) (r : RecordIndex) :
    (o = .depthFirst →
      (s.color r = .white ↔ .event (.start r) ∉ h) ∧
      (s.color r = .black ↔ Finished h r) ∧
      (s.color r = .gray ↔ .event (.start r) ∈ h ∧ ¬ Finished h r)) ∧
    (o = .breadthFirst →
      (s.color r = .black ↔ Finished h r) ∧
      (s.color r = .gray ↔ ¬ Finished h r ∧ (.event (.start r) ∈ h ∨ Crossed h r)) ∧
      (s.color r = .white ↔ ¬ Finished h r ∧ ¬ (.event (.start r) ∈ h ∨ Crossed h r))) ∧
    (s.color r).rank ≤ (s'.color r).rank ∧
    (o = .depthFirst → .skippedState r ∈ h → s'.color r = s.color r) := by
  obtain ⟨c, reached⟩ := reached_of_play hb
  have k : Colored o h s.view := colored_of_reached reached
  have later : s' = (s.play after).2 := by rw [ha]
  refine ⟨?_, ?_, ?_, ?_⟩
  · rintro rfl
    have touched : Touched .depthFirst h r ↔ .event (.start r) ∈ h := by simp [Touched]
    refine ⟨?_, k.black_iff r, ?_⟩
    · rw [← touched]
      exact k.white_iff r
    · rw [← touched, and_comm]
      exact k.gray_iff r
  · rintro rfl
    have touched : Touched .breadthFirst h r ↔ .event (.start r) ∈ h ∨ Crossed h r := by
      simp [Touched]
    rw [← touched]
    refine ⟨k.black_iff r, k.gray_iff r, (k.white_iff r).trans ⟨?_, And.right⟩⟩
    intro untouched
    exact ⟨fun finished => untouched (k.touched_of_finished finished), untouched⟩
  · rw [later]
    refine c.play_keeps (P := fun w => (s.color r).rank ≤ (w.color r).rank) ?_ ?_ after
    · intro w y w' move le
      exact Nat.le_trans le (move.rank_color_le r)
    · exact Nat.le_refl _
  · rintro rfl given
    have gone := gone_of_skippedState reached given
    suffices kept : (s.play after).2.view.Gone r ∧ (s.play after).2.view.color r = s.color r by
      rw [later]
      exact kept.2
    refine c.play_keeps (P := fun w => w.Gone r ∧ w.color r = s.color r) ?_ ⟨gone, rfl⟩ after
    rintro w y w' move ⟨gone, same⟩
    exact ⟨move.gone gone, (move.color_eq gone.2).trans same⟩

/-- Breadth-first a second edge to a state makes its record gray before the state is started. -/
theorem color_iff_history_relay :
    let run := (begin Traversal.relay ['a', 'a'] .breadthFirst Unit).play
      [.next, .next, .next, .next, .next]
    run.1 = [.event (.initial 0), .event (.initial 1), .event (.start 0),
      .event (.edge .tree 0 'a' 0 2), .event (.edge .cross 0 'a' 0 2)] ∧
    run.2.color 2 = .gray := by
  intro run
  have reports : run.1 = [.event (.initial 0), .event (.initial 1), .event (.start 0),
      .event (.edge .tree 0 'a' 0 2), .event (.edge .cross 0 'a' 0 2)] := by
    cbv
  have crossed : Crossed run.1 2 := ⟨0, 'a', 0, by simp [reports]⟩
  have unfinished : ¬ Finished run.1 2 := by simp [Finished, reports]
  obtain ⟨-, breadth, -⟩ := color_iff_history (h := run.1) (s := run.2) rfl
    (show run.2.play [] = _ from rfl) 2
  exact ⟨reports, (breadth rfl).2.1.2 ⟨unfinished, .inr crossed⟩⟩

end Exploration.Search
