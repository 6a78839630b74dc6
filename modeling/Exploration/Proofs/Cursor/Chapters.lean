import Exploration.Proofs.Cursor.Journal
import Exploration.Proofs.Cursor.Yields
import Exploration.Proofs.Traversal.History

/-!
# The chapters of a journal

The journal of a cursor falls into chapters, one for each row that was reached: the row is expanded,
and then its items are given in order until the row is at its end or dropped. `Recorded` says which
journals there are and what rows and items are left, entry by entry; what is said of all journals is
proved by induction on it.
-/

namespace Exploration.Cursor

variable {ν ο α : Type}

namespace Entry

/-- The row that was expanded, with its items. -/
@[simp] def expansion? : Entry ο α → Option (ο × List α)
  | .expanded o as => some (o, as)
  | .given _ _ => none
  | .ended => none
  | .skipped => none
  | .stopped => none

/-- The pair that was given. -/
@[simp] def pair? : Entry ο α → Option (ο × α)
  | .expanded _ _ => none
  | .given o a => some (o, a)
  | .ended => none
  | .skipped => none
  | .stopped => none

/-- What is left of the current row is dropped. -/
def IsDrop (e : Entry ο α) : Prop := e = .skipped ∨ e = .stopped

/-- What may be noted when these rows are to come and these pairs are left of the current row. -/
def Fits : Entry ο α → List ο → List (ο × α) → Prop
  | .expanded o _, later, left => later.head? = some o ∧ left = []
  | .given o a, _, left => left.head? = some (o, a)
  | .ended, later, left => later = [] ∧ left = []
  | .skipped, _, _ => True
  | .stopped, _, _ => True

end Entry

/-- The rows that were expanded, with their items. -/
def expansions (h : List (Entry ο α)) : List (ο × List α) := h.filterMap Entry.expansion?

/-- The pairs that were given. -/
def pairs (h : List (Entry ο α)) : List (ο × α) := h.filterMap Entry.pair?

@[simp] theorem expansions_nil : expansions ([] : List (Entry ο α)) = [] := rfl

@[simp] theorem expansions_cons (e : Entry ο α) (h : List (Entry ο α)) :
    expansions (e :: h) = e.expansion?.toList ++ expansions h := by
  cases e <;> rfl

@[simp] theorem pairs_nil : pairs ([] : List (Entry ο α)) = [] := rfl

@[simp] theorem pairs_cons (e : Entry ο α) (h : List (Entry ο α)) :
    pairs (e :: h) = e.pair?.toList ++ pairs h := by
  cases e <;> rfl

@[simp] theorem expansions_append (h h' : List (Entry ο α)) :
    expansions (h ++ h') = expansions h ++ expansions h' := List.filterMap_append

@[simp] theorem pairs_append (h h' : List (Entry ο α)) :
    pairs (h ++ h') = pairs h ++ pairs h' := List.filterMap_append

/-- The journals of a cursor over `rows`, with the rows it has still to reach and the pairs left of
its current row. An item is given as soon as its row has one. -/
inductive Recorded (rows : List ο) : List (Entry ο α) → List ο → List (ο × α) → Prop
  | begin : Recorded rows [] rows []
  | passed {h : List (Entry ο α)} {o : ο} {later : List ο}
      (before : Recorded rows h (o :: later) []) :
      Recorded rows (h ++ [.expanded o []]) later []
  | reached {h : List (Entry ο α)} {o : ο} {later : List ο}
      (before : Recorded rows h (o :: later) []) (a : α) (rest : List α) :
      Recorded rows (h ++ [.expanded o (a :: rest), .given o a]) later (rest.map (o, ·))
  | given {h : List (Entry ο α)} {o : ο} {a : α} {later : List ο} {left : List (ο × α)}
      (before : Recorded rows h later ((o, a) :: left)) :
      Recorded rows (h ++ [.given o a]) later left
  | ended {h : List (Entry ο α)} (before : Recorded rows h [] []) :
      Recorded rows (h ++ [.ended]) [] []
  | skipped {h : List (Entry ο α)} {later : List ο} {left : List (ο × α)}
      (before : Recorded rows h later left) : Recorded rows (h ++ [.skipped]) later []
  | stopped {h : List (Entry ο α)} {later : List ο} {left : List (ο × α)}
      (before : Recorded rows h later left) : Recorded rows (h ++ [.stopped]) [] []

namespace Recorded

variable {rows later : List ο} {h : List (Entry ο α)} {left : List (ο × α)}
  {expand : ν → ο → List α × ν} {c : Cursor ο α} {m n : ν}

/-- A search notes the rows it passes over and then what it found. -/
theorem search {seen : List (ο × List α)} {out : Option (ο × α) × Cursor ο α}
    (k : Recorded rows h later []) (finds : Finds expand m later seen out n) :
    Recorded rows (h ++ (seen.map (fun e => .expanded e.1 e.2) ++ [.answer out.1])) out.2.rows
      (ofRow out.2.current) := by
  induction finds generalizing h with
  | ended => exact k.ended
  | passed asked finds ih =>
    have after := ih k.passed
    rwa [List.append_assoc] at after
  | found asked later => exact k.reached _ _

theorem perform (k : Recorded rows h c.rows (ofRow c.current)) (r : Request ν ο α) (m : ν) :
    Recorded rows (h ++ (perform r c m).1) (perform r c m).2.1.rows
      (ofRow (perform r c m).2.1.current) := by
  cases r with
  | next expand =>
    obtain ⟨seen, out, n, answers, -, told⟩ := exists_perform_next expand c m
    rw [told]
    cases answers with
    | within there =>
      rw [there] at k
      exact k.given
    | beyond spent finds =>
      rw [spent] at k
      exact k.search finds
  | skipRow => exact k.skipped
  | stop => exact k.stopped

theorem play (k : Recorded rows h c.rows (ofRow c.current)) (rs : List (Request ν ο α)) (m : ν) :
    Recorded rows (h ++ (play rs c m).1) (play rs c m).2.1.rows
      (ofRow (play rs c m).2.1.current) := by
  induction rs generalizing h c m with
  | nil => rwa [Cursor.play, List.append_nil]
  | cons r rs ih =>
    have after := ih (k.perform r m) (Cursor.perform r c m).2.2
    rwa [List.append_assoc] at after

/-- After the end or a stop nothing is left. -/
theorem nothing_left (k : Recorded rows h later left) (closed : .ended ∈ h ∨ .stopped ∈ h) :
    later = [] ∧ left = [] := by
  induction k with
  | begin => simp at closed
  | passed before ih | reached before a rest ih =>
    exact absurd (ih (by simpa using closed)).1 (List.cons_ne_nil _ _)
  | given before ih => exact absurd (ih (by simpa using closed)).2 (List.cons_ne_nil _ _)
  | ended => exact ⟨rfl, rfl⟩
  | skipped before ih => exact ⟨(ih (by simpa using closed)).1, rfl⟩
  | stopped => exact ⟨rfl, rfl⟩

/-- Nothing is left of a row from which nothing was given. -/
theorem left_of_pairs_eq_nil (k : Recorded rows h later left) (none : pairs h = []) :
    left = [] := by
  induction k with
  | begin | passed | ended | skipped | stopped => rfl
  | reached before a rest => simp at none
  | given before => simp at none

/-- Nothing is given before a row is reached. -/
theorem pairs_eq_nil (k : Recorded rows h later left) (none : expansions h = []) :
    pairs h = [] := by
  induction k with
  | begin => rfl
  | passed => simp at none
  | reached before a rest => simp at none
  | given before ih =>
    exact absurd (before.left_of_pairs_eq_nil (ih (by simpa using none))) (List.cons_ne_nil _ _)
  | ended before ih | skipped before ih | stopped before ih =>
    simpa using ih (by simpa using none)

/-- The rows were reached in order; those not yet reached are to come, unless there was a stop. -/
theorem rows_eq (k : Recorded rows h later left) : ∃ unread,
    (expansions h).map Prod.fst ++ unread = rows ∧ (.stopped ∉ h → later = unread) := by
  have next {h : List (Entry ο α)} {o : ο} {later unread : List ο}
      (before : Recorded rows h (o :: later) [])
      (whole : (expansions h).map Prod.fst ++ unread = rows)
      (same : .stopped ∉ h → o :: later = unread) :
      (expansions h).map Prod.fst ++ o :: later = rows := by
    have going : .stopped ∉ h := fun stop =>
      absurd (before.nothing_left (.inr stop)).1 (List.cons_ne_nil _ _)
    rwa [← same going] at whole
  induction k with
  | begin => exact ⟨rows, rfl, fun _ => rfl⟩
  | @passed h o later before ih | @reached h o later before a rest ih =>
    obtain ⟨unread, whole, same⟩ := ih
    exact ⟨later, by simpa using next before whole same, fun _ => rfl⟩
  | given before ih | ended before ih | skipped before ih =>
    obtain ⟨unread, whole, same⟩ := ih
    exact ⟨unread, by simpa using whole, fun going => same (by simpa using going)⟩
  | stopped before ih =>
    obtain ⟨unread, whole, -⟩ := ih
    exact ⟨unread, by simpa using whole, fun going => absurd going (by simp)⟩

/-- Every entry was noted when it might be, or is the first pair of the row reached just before. -/
theorem split (k : Recorded rows h later left) {before after : List (Entry ο α)} {e : Entry ο α}
    (split : h = before ++ e :: after) :
    (∃ later left, Recorded rows before later left ∧ e.Fits later left) ∨
      ∃ h o a rest, before = h ++ [.expanded o (a :: rest)] ∧ e = .given o a := by
  induction k generalizing after with
  | begin => simp at split
  | passed noted ih | ended noted ih =>
    rcases snoc_eq_append_cons_iff.1 split with ⟨rfl, rfl, -⟩ | ⟨after, split, -⟩
    · exact .inl ⟨_, _, noted, rfl, rfl⟩
    · exact ih split
  | @reached h o later noted a rest ih =>
    -- Two entries were noted at once, so the last two have to be told apart.
    rw [List.append_cons] at split
    rcases snoc_eq_append_cons_iff.1 split with ⟨rfl, rfl, -⟩ | ⟨after, split, -⟩
    · exact .inr ⟨h, o, a, rest, rfl, rfl⟩
    rcases snoc_eq_append_cons_iff.1 split with ⟨rfl, rfl, -⟩ | ⟨after, split, -⟩
    · exact .inl ⟨_, _, noted, rfl, rfl⟩
    · exact ih split
  | given noted ih =>
    rcases snoc_eq_append_cons_iff.1 split with ⟨rfl, rfl, -⟩ | ⟨after, split, -⟩
    · exact .inl ⟨_, _, noted, rfl⟩
    · exact ih split
  | skipped noted ih | stopped noted ih =>
    rcases snoc_eq_append_cons_iff.1 split with ⟨rfl, rfl, -⟩ | ⟨after, split, -⟩
    · exact .inl ⟨_, _, noted, trivial⟩
    · exact ih split

/-- When the next row is reached nothing is left of the current one. -/
theorem before_expanded (k : Recorded rows h later left) {before after : List (Entry ο α)} {o : ο}
    {as : List α} (split : h = before ++ .expanded o as :: after) :
    ∃ later, Recorded rows before later [] := by
  rcases k.split split with ⟨later, left, noted, -, rfl⟩ | ⟨_, _, _, _, -, other⟩
  · exact ⟨later, noted⟩
  · cases other

/-- A row was reached before anything is given. -/
theorem before_given (k : Recorded rows h later left) {before after : List (Entry ο α)} {o : ο}
    {a : α} (split : h = before ++ .given o a :: after) : expansions before ≠ [] := by
  rcases k.split split with ⟨later, left, noted, there⟩ | ⟨h, o, a, rest, rfl, -⟩
  · intro none
    rw [noted.left_of_pairs_eq_nil (noted.pairs_eq_nil none)] at there
    cases there
  · simp

end Recorded

/-- The row in hand was skipped, or the cursor stopped, after it had given something. -/
def Cut (mid : List (Entry ο α)) : Prop :=
  ∃ before e after, mid = before ++ e :: after ∧ e.IsDrop ∧ pairs before ≠ []

theorem cut_snoc_iff {mid : List (Entry ο α)} {e : Entry ο α} :
    Cut (mid ++ [e]) ↔ Cut mid ∨ e.IsDrop ∧ pairs mid ≠ [] := by
  constructor
  · rintro ⟨before, e', after, split, drop, given⟩
    rcases snoc_eq_append_cons_iff.1 split with ⟨rfl, rfl, -⟩ | ⟨after, rfl, -⟩
    · exact .inr ⟨drop, given⟩
    · exact .inl ⟨before, e', after, rfl, drop, given⟩
  · rintro (⟨before, e', after, rfl, drop, given⟩ | ⟨drop, given⟩)
    · exact ⟨before, e', after ++ [e], by simp, drop, given⟩
    · exact ⟨mid, e, [], rfl, drop, given⟩

/-- What came after the row `o` was expanded to `as` and before another row was reached, and what
is left of the row. -/
structure InHand (o : ο) (as : List α) (mid : List (Entry ο α)) (left : List (ο × α)) : Prop where
  whole : ¬ Cut mid → pairs mid ++ left = as.map (o, ·)
  ofRow : pairs mid <+: as.map (o, ·)
  begun : as ≠ [] → pairs mid ≠ []
  dropped : (∃ e ∈ mid, e.IsDrop) → left = []

namespace InHand

variable {o o' : ο} {a : α} {as : List α} {mid : List (Entry ο α)} {left : List (ο × α)}
  {e : Entry ο α}

theorem passed (o : ο) : InHand o ([] : List α) [] [] where
  whole _ := rfl
  ofRow := List.prefix_refl _
  begun some := absurd rfl some
  dropped _ := rfl

theorem reached (o : ο) (a : α) (rest : List α) :
    InHand o (a :: rest) [.given o a] (rest.map (o, ·)) where
  whole _ := rfl
  ofRow := ⟨rest.map (o, ·), rfl⟩
  begun _ := by simp
  dropped drop := by
    obtain ⟨e, he, rfl | rfl⟩ := drop <;> simp at he

theorem not_dropped (k : InHand o as mid ((o', a) :: left)) (e : Entry ο α) (he : e ∈ mid) :
    ¬ e.IsDrop := fun drop => absurd (k.dropped ⟨e, he, drop⟩) (List.cons_ne_nil _ _)

theorem given (k : InHand o as mid ((o', a) :: left)) :
    InHand o as (mid ++ [.given o' a]) left := by
  have uncut : ¬ Cut mid := by
    rintro ⟨before, e, after, rfl, drop, -⟩
    exact k.not_dropped e (by simp) drop
  have whole := k.whole uncut
  rw [List.append_cons] at whole
  have told : pairs (mid ++ [.given o' a]) = pairs mid ++ [(o', a)] := by simp
  constructor
  · intro _
    rw [told, whole]
  · rw [told, ← whole]
    exact List.prefix_append _ _
  · intro _
    simp
  · rintro ⟨e, he, drop⟩
    rcases List.mem_append.1 he with old | new
    · exact absurd drop (k.not_dropped e old)
    · obtain rfl := List.mem_singleton.1 new
      rcases drop with drop | drop <;> cases drop

theorem ended (k : InHand o as mid []) : InHand o as (mid ++ [.ended]) [] where
  whole uncut := by
    simpa using k.whole fun cut => uncut (cut_snoc_iff.2 (.inl cut))
  ofRow := by simpa using k.ofRow
  begun some := by simpa using k.begun some
  dropped _ := rfl

theorem drop (k : InHand o as mid left) (drop : e.IsDrop) : InHand o as (mid ++ [e]) [] := by
  have silent : pairs (mid ++ [e]) = pairs mid := by
    rcases drop with rfl | rfl <;> simp
  constructor
  · -- A row with items has given one by now, so what is dropped uncut had none.
    intro uncut
    have none : pairs mid = [] := by
      by_contra some
      exact uncut (cut_snoc_iff.2 (.inr ⟨drop, some⟩))
    have empty : as = [] := by
      by_contra some
      exact k.begun some none
    rw [silent, none, empty]
    rfl
  · rw [silent]
    exact k.ofRow
  · rw [silent]
    exact k.begun
  · exact fun _ => rfl

end InHand

/-- Where a journal leaves the row reached last. -/
theorem Recorded.inHand {rows later : List ο} {h : List (Entry ο α)} {left : List (ο × α)}
    (k : Recorded rows h later left) {before mid : List (Entry ο α)} {o : ο} {as : List α}
    (split : h = before ++ .expanded o as :: mid) (last : expansions mid = []) :
    InHand o as mid left := by
  induction k generalizing mid with
  | begin => simp at split
  | passed noted ih =>
    rcases snoc_eq_append_cons_iff.1 split with ⟨rfl, same, rfl⟩ | ⟨mid, earlier, rfl⟩
    · cases same
      exact .passed o
    · simp at last
  | @reached h o later noted a rest ih =>
    rw [List.append_cons] at split
    rcases snoc_eq_append_cons_iff.1 split with ⟨rfl, same, rfl⟩ | ⟨mid, earlier, rfl⟩
    · cases same
    rcases snoc_eq_append_cons_iff.1 earlier with ⟨rfl, same, rfl⟩ | ⟨mid, earlier, rfl⟩
    · cases same
      exact .reached _ a rest
    · simp at last
  | given noted ih =>
    rcases snoc_eq_append_cons_iff.1 split with ⟨rfl, same, rfl⟩ | ⟨mid, earlier, rfl⟩
    · cases same
    · exact (ih earlier (by simpa using last)).given
  | ended noted ih =>
    rcases snoc_eq_append_cons_iff.1 split with ⟨rfl, same, rfl⟩ | ⟨mid, earlier, rfl⟩
    · cases same
    · exact (ih earlier (by simpa using last)).ended
  | skipped noted ih | stopped noted ih =>
    rcases snoc_eq_append_cons_iff.1 split with ⟨rfl, same, rfl⟩ | ⟨mid, earlier, rfl⟩
    · cases same
    · exact (ih earlier (by simpa using last)).drop (by simp [Entry.IsDrop])

/-- In the journal `h` the row `o` was expanded to `as`, then came `mid` before another row was
reached, and then `after`. -/
def Chapter (h : List (Entry ο α)) (o : ο) (as : List α) (mid after : List (Entry ο α)) : Prop :=
  ∃ before, h = before ++ .expanded o as :: (mid ++ after) ∧ expansions mid = [] ∧
    (after = [] ∨ ∃ o' as' rest, after = .expanded o' as' :: rest)

/-- The row reached last, if there is one, was read to its end or dropped. -/
def Spent (h : List (Entry ο α)) : Prop :=
  ∀ o as mid, Chapter h o as mid [] → pairs mid = as.map (o, ·) ∨ ∃ e ∈ mid, e.IsDrop

theorem exists_chapter {h : List (Entry ο α)} (some : expansions h ≠ []) :
    ∃ o as mid, Chapter h o as mid [] := by
  induction h using List.reverseRecOn with
  | nil => exact absurd rfl some
  | append_singleton h e ih =>
    have later (silent : expansions [e] = []) : ∃ o as mid, Chapter (h ++ [e]) o as mid [] := by
      rw [expansions_append, silent, List.append_nil] at some
      obtain ⟨o, as, mid, before, rfl, last, -⟩ := ih some
      refine ⟨o, as, mid ++ [e], before, by simp, ?_, .inl rfl⟩
      rw [expansions_append, last, silent]
      rfl
    cases e with
    | expanded o as => exact ⟨o, as, [], h, rfl, rfl, .inl rfl⟩
    | given => exact later rfl
    | ended => exact later rfl
    | skipped => exact later rfl
    | stopped => exact later rfl

namespace Recorded

variable {rows later : List ο} {h : List (Entry ο α)} {left : List (ο × α)} {c : Cursor ο α}

/-- A chapter is whole if the walk went on behind its row, and the row was not dropped. -/
theorem chapter (k : Recorded rows h later left) {o : ο} {as : List α}
    {mid after : List (Entry ο α)} (chapter : Chapter h o as mid after) :
    pairs mid <+: as.map (o, ·) ∧
      (after ≠ [] ∨ .ended ∈ mid → ¬ Cut mid → pairs mid = as.map (o, ·)) := by
  obtain ⟨before, split, last, rfl | ⟨o', as', rest, rfl⟩⟩ := chapter
  · rw [List.append_nil] at split
    have hand := k.inHand split last
    refine ⟨hand.ofRow, fun on uncut => ?_⟩
    have closed : .ended ∈ h := by
      rw [split]
      simpa using .inr (on.resolve_left (fun more => more rfl))
    simpa [(k.nothing_left (.inl closed)).2] using hand.whole uncut
  · rw [← List.cons_append, ← List.append_assoc] at split
    obtain ⟨later, noted⟩ := k.before_expanded split
    have hand := noted.inHand rfl last
    exact ⟨hand.ofRow, fun _ uncut => by simpa using hand.whole uncut⟩

/-- Nothing is left of the current row exactly when the row reached last is spent. -/
theorem left_eq_nil_iff (k : Recorded rows h later left) : left = [] ↔ Spent h := by
  constructor
  · rintro rfl o as mid ⟨before, split, last, -⟩
    rw [List.append_nil] at split
    have hand := k.inHand split last
    by_cases cut : Cut mid
    · obtain ⟨before, e, after, rfl, drop, -⟩ := cut
      exact .inr ⟨e, by simp, drop⟩
    · exact .inl (by simpa using hand.whole cut)
  · intro spent
    by_cases none : expansions h = []
    · exact k.left_of_pairs_eq_nil (k.pairs_eq_nil none)
    obtain ⟨o, as, mid, chapter⟩ := exists_chapter none
    have done := spent o as mid chapter
    obtain ⟨before, split, last, -⟩ := chapter
    rw [List.append_nil] at split
    have hand := k.inHand split last
    rcases done with told | drop
    · by_cases cut : Cut mid
      · obtain ⟨before, e, after, rfl, drop, -⟩ := cut
        exact hand.dropped ⟨e, by simp, drop⟩
      · have whole := hand.whole cut
        rwa [told, List.append_right_eq_self] at whole
    · exact hand.dropped drop

section Answers

variable {expand : ν → ο → List α × ν} {m n : ν} {seen : List (ο × List α)}
  {out : Option (ο × α) × Cursor ο α}

/-- A call gives nothing after a stop, and when nothing is left and its own expansion has no item
for any row that is to come. -/
theorem answer_eq_none_iff (k : Recorded rows h c.rows (ofRow c.current))
    (answers : Answers expand c m seen out n) : out.1 = none ↔ .stopped ∈ h ∨ Spent h ∧
      ∀ e ∈ (askAll expand m (rows.drop (expansions h).length)).1, e.2 = [] := by
  cases answers with
  | within there =>
    rw [there] at k
    have left : ¬ Spent h := mt k.left_eq_nil_iff.2 (List.cons_ne_nil _ _)
    have going : .stopped ∉ h := fun stop =>
      absurd (k.nothing_left (.inr stop)).2 (List.cons_ne_nil _ _)
    simp [left, going]
  | beyond spent finds =>
    rw [finds.fst_eq_none_iff]
    rw [spent] at k
    by_cases stop : .stopped ∈ h
    · simp [stop, (k.nothing_left (.inr stop)).1, askAll]
    · obtain ⟨unread, whole, rest⟩ := k.rows_eq
      rw [← whole, List.drop_left' (List.length_map _), rest stop]
      simp [stop, k.left_eq_nil_iff.1 rfl]

/-- After the end or a stop no row is asked about and nothing is given. -/
theorem answer_of_closed (k : Recorded rows h c.rows (ofRow c.current))
    (answers : Answers expand c m seen out n) (closed : .ended ∈ h ∨ .stopped ∈ h) :
    seen = [] ∧ out.1 = none := by
  cases answers with
  | within there =>
    rw [there] at k
    exact absurd (k.nothing_left closed).2 (List.cons_ne_nil _ _)
  | beyond spent finds =>
    rw [(k.nothing_left closed).1] at finds
    cases finds
    exact ⟨rfl, rfl⟩

end Answers

/-- What a call for the next item comes to after any journal. -/
theorem perform_next (k : Recorded rows h c.rows (ofRow c.current))
    (expand : ν → ο → List α × ν) (m : ν) : ∃ seen given d n,
    Cursor.perform (.next expand) c m =
      (seen.map (fun e => .expanded e.1 e.2) ++ [.answer given], d, n) ∧
    askAll expand m (seen.map Prod.fst) = (seen, n) ∧
    (given = none ↔ .stopped ∈ h ∨ Spent h ∧
      ∀ e ∈ (askAll expand m (rows.drop (expansions h).length)).1, e.2 = []) ∧
    (.ended ∈ h ∨ .stopped ∈ h → seen = [] ∧ given = none) ∧
    ∀ f : ο → List α, (∀ m o, (expand m o).1 = f o) → c.next f = (given, d) := by
  obtain ⟨seen, out, n, answers, same, told⟩ := exists_perform_next expand c m
  refine ⟨seen, out.1, out.2, n, told, answers.askAll_eq, k.answer_eq_none_iff answers,
    k.answer_of_closed answers, fun f plain => ?_⟩
  have noted (m : ν × List (ο × List α)) (o : ο) : (noting expand m o).1 = f o := plain m.1 o
  rw [← nextWith_fst noted (m, []) c, same]

end Recorded

/-- The journal of any calls to a cursor, each call for the next item with its own expansion. The
rows are reached in order and at most once. The pairs of a row begin its one expansion, so that an
empty one gives nothing, and are all of it unless the row was cut short or the calls stop there.
A call for the next item asks its own expansion about the rows it reaches; it gives nothing exactly
after a stop or when no pair is left, and once there is an end or a stop nothing is given any more.
To skip a row of which nothing was given or nothing is left makes no difference to the calls that
follow. With one expansion and without skips all its pairs are given. -/
theorem journal_in_order (rows : List ο) (m₀ : ν) (rs : List (Request ν ο α)) :
    let p := play rs ⟨rows, none⟩ m₀
    let h := p.1
    let c := p.2.1
    let m := p.2.2
    (expansions h).map Prod.fst <+: rows ∧
    (∀ before o a after, h = before ++ .given o a :: after → expansions before ≠ []) ∧
    (∀ o as mid after, Chapter h o as mid after → pairs mid <+: as.map (o, ·) ∧
      (after ≠ [] ∨ .ended ∈ mid → ¬ Cut mid → pairs mid = as.map (o, ·))) ∧
    (∀ expand, ∃ seen given d n,
      perform (.next expand) c m =
        (seen.map (fun e => .expanded e.1 e.2) ++ [.answer given], d, n) ∧
      askAll expand m (seen.map Prod.fst) = (seen, n) ∧
      (given = none ↔ .stopped ∈ h ∨ Spent h ∧
        ∀ e ∈ (askAll expand m (rows.drop (expansions h).length)).1, e.2 = []) ∧
      (.ended ∈ h ∨ .stopped ∈ h → seen = [] ∧ given = none) ∧
      ∀ f : ο → List α, (∀ m o, (expand m o).1 = f o) → c.next f = (given, d)) ∧
    (pairs h = [] ∨ Spent h → ∀ later,
      (play (.skipRow :: later) c m).1 = .skipped :: (play later c m).1 ∧
      (play (.skipRow :: later) c m).2.2 = (play later c m).2.2) ∧
    ∀ f : ο → List α, Yields Reader.next (Reader.ofRows rows f)
      (rows.flatMap fun o => (f o).map (o, ·)) := by
  intro p h c m
  have recorded : Recorded rows h c.rows (ofRow c.current) := by
    let start : Cursor ο α := ⟨rows, none⟩
    have fresh : Recorded rows [] start.rows (ofRow start.current) := .begin
    exact fresh.play rs m₀
  have reached : (expansions h).map Prod.fst <+: rows := by
    obtain ⟨unread, whole, -⟩ := recorded.rows_eq
    exact ⟨unread, whole⟩
  have skip (nothing : pairs h = [] ∨ Spent h) (later : List (Request ν ο α)) :
      (play (.skipRow :: later) c m).1 = .skipped :: (play later c m).1 ∧
      (play (.skipRow :: later) c m).2.2 = (play later c m).2.2 := by
    have spent : ofRow c.current = [] :=
      nothing.elim recorded.left_of_pairs_eq_nil recorded.left_eq_nil_iff.2
    have same := play_skipRow_of_spent spent later m
    exact ⟨congrArg (Entry.skipped :: ·) same.1, same.2⟩
  exact ⟨reached, fun _ _ _ _ split => recorded.before_given split,
    fun _ _ _ _ chapter => recorded.chapter chapter,
    fun expand => recorded.perform_next expand m, skip,
    fun f => (Reader.ofRows rows f).yields⟩

/-- The memory counts the rows that were asked about. -/
example :
    let expand (m o : Nat) := (List.replicate o (m + 1), m + 1)
    (play [.skipRow, .next expand, .skipRow, .next (fun m _ => ([], m)), .next expand]
        (⟨[0, 2, 5], none⟩ : Cursor Nat Nat) 0).1 =
      [.skipped, .expanded 0 [], .expanded 2 [2, 2], .given 2 2, .skipped, .expanded 5 [],
        .ended, .ended] := by
  decide

end Exploration.Cursor
