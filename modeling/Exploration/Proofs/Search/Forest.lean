import Mathlib.Data.List.Basic
import Mathlib.Logic.Relation
import Exploration.Proofs.Search.History

/-!
# The forest of a depth-first search

The tree edges of a history make a forest of records. A depth-first search keeps a path of it on
its stack: numbers grow towards the head, all but the head were started, every record numbered
above a stacked one descends from it, and parents of stacked records are stacked. `Stacked` is
this invariant and `Shaded` ties the colors to it; both hold of every history, whatever is
skipped.
-/

namespace Exploration.Search

variable {σ ι τ : Type}

/-- A tree edge from `u` created `v`. -/
def Parent (h : List (Report ι τ)) (u v : RecordIndex) : Prop :=
  ∃ i x, .event (.edge .tree u i x v) ∈ h

/-- `u` is a proper ancestor of `v`. -/
def Ancestor (h : List (Report ι τ)) : RecordIndex → RecordIndex → Prop :=
  Relation.TransGen (Parent h)

/-- `r` was given up after it had been started. -/
def Abandoned (h : List (Report ι τ)) (r : RecordIndex) : Prop :=
  [.event (.start r), .skippedState r].Sublist h

/-- The report neither starts nor creates a record. -/
def Report.Quiet : Report ι τ → Prop
  | .event (.start _) => False
  | .event (.edge .tree _ _ _ _) => False
  | _ => True

theorem quiet_edge {k : EdgeKind} {u v : RecordIndex} {i : ι} {x : τ} (hk : k ≠ .tree) :
    (.event (.edge k u i x v) : Report ι τ).Quiet := by
  cases k with
  | tree => exact absurd rfl hk
  | back => trivial
  | forward => trivial
  | cross => trivial

theorem parent_append_iff {h h' : List (Report ι τ)} {u v : RecordIndex} :
    Parent (h ++ h') u v ↔ Parent h u v ∨ Parent h' u v := by
  simp only [Parent, List.mem_append, exists_or]

theorem Ancestor.append {h h' : List (Report ι τ)} {u v : RecordIndex} (a : Ancestor h u v) :
    Ancestor (h ++ h') u v := by
  induction a with
  | single p => exact .single (parent_append_iff.2 (.inl p))
  | tail _ p ih => exact ih.tail (parent_append_iff.2 (.inl p))

theorem Report.Quiet.not_parent {y : Report ι τ} (quiet : y.Quiet) {u v : RecordIndex} :
    ¬ Parent [y] u v := by
  rintro ⟨i, x, hx⟩
  rw [← List.mem_singleton.1 hx] at quiet
  exact quiet

theorem parent_snoc_of_quiet {h : List (Report ι τ)} {y : Report ι τ} (quiet : y.Quiet)
    {u v : RecordIndex} : Parent (h ++ [y]) u v ↔ Parent h u v := by
  rw [parent_append_iff, or_iff_left quiet.not_parent]

theorem start_mem_snoc_of_quiet {h : List (Report ι τ)} {y : Report ι τ} (quiet : y.Quiet)
    {r : RecordIndex} : .event (.start r) ∈ h ++ [y] ↔ .event (.start r) ∈ h := by
  constructor
  · intro hx
    rcases List.mem_append.1 hx with hx | hx
    · exact hx
    · rw [← List.mem_singleton.1 hx] at quiet
      exact quiet.elim
  · exact List.mem_append_left [y]

theorem parent_snoc_start {h : List (Report ι τ)} {r u v : RecordIndex} :
    Parent (h ++ [.event (.start r)]) u v ↔ Parent h u v := by
  simp [Parent]

theorem parent_tree_iff {u v a b : RecordIndex} {i : ι} {x : τ} :
    Parent [.event (.edge .tree u i x v)] a b ↔ a = u ∧ b = v := by
  simp [Parent]

/-- A new tree edge gives a parent to its target alone. -/
theorem parent_snoc_tree {h : List (Report ι τ)} {u v a b : RecordIndex} {i : ι} {x : τ} :
    Parent (h ++ [.event (.edge .tree u i x v)]) a b ↔ Parent h a b ∨ (a = u ∧ b = v) := by
  rw [parent_append_iff, parent_tree_iff]

theorem abandoned_iff_reverse {h : List (Report ι τ)} {r : RecordIndex} :
    Abandoned h r ↔ [.skippedState r, .event (.start r)].Sublist h.reverse :=
  List.reverse_sublist.symm

/-- A record is abandoned by the last report only if that gives it up. -/
theorem abandoned_snoc {h : List (Report ι τ)} {y : Report ι τ} {r : RecordIndex} :
    Abandoned (h ++ [y]) r ↔
      Abandoned h r ∨ (.event (.start r) ∈ h ∧ y = .skippedState r) := by
  rw [abandoned_iff_reverse, abandoned_iff_reverse, List.reverse_append, List.reverse_singleton,
    List.singleton_append, List.sublist_cons_iff]
  simp [and_comm, eq_comm]

theorem Abandoned.started {h : List (Report ι τ)} {r : RecordIndex} (a : Abandoned h r) :
    .event (.start r) ∈ h :=
  a.subset List.mem_cons_self

/-- The records of the pending visits, head first, with whether they were started. -/
def View.outline (w : View σ ι τ) : List (RecordIndex × Bool) :=
  w.pending.map fun v => (v.label, v.started)

theorem View.outline_of_cons {w : View σ ι τ} {v : Visit σ ι τ RecordIndex}
    {rest : List (Visit σ ι τ RecordIndex)} (head : w.pending = v :: rest) :
    w.outline = (v.label, v.started) :: (w.withPending rest).outline := by
  rw [outline, head]
  rfl

/-- A step of the head that neither starts nor ends it. -/
theorem View.outline_of_step {w : View σ ι τ} {v a : Visit σ ι τ RecordIndex}
    {rest : List (Visit σ ι τ RecordIndex)} (head : w.pending = v :: rest)
    (label : a.label = v.label) (started : a.started = v.started) :
    (w.withPending (a :: rest)).outline = w.outline := by
  rw [outline_of_cons head, ← label, ← started]
  rfl

theorem View.outline_enter (A : List ι) (w : View σ ι τ) (t : σ) :
    (w.enter A .depthFirst t).outline = (w.states.length, false) :: w.outline := rfl

/-- Depth-first an edge to a state with a record leaves the record alone. -/
theorem View.note_depthFirst (w : View σ ι τ) (r : RecordIndex) : w.note .depthFirst r = w := by
  simp [note]

structure Stacked (h : List (Report ι τ)) (stack : List (RecordIndex × Bool)) (n : Nat) :
    Prop where
  sorted : (stack.map Prod.fst).Pairwise fun a b => b < a
  bounded : ∀ r ∈ stack.map Prod.fst, r < n
  begun : ∀ a ∈ stack.tail, a.2 = true
  started : ∀ a ∈ stack, a.2 = true ↔ .event (.start a.1) ∈ h
  start_lt : ∀ r, .event (.start r) ∈ h → r < n
  parent_lt : ∀ u v, Parent h u v → u < v ∧ v < n
  closed : ∀ v ∈ stack.map Prod.fst, ∀ u, Parent h u v → u ∈ stack.map Prod.fst
  above : ∀ u ∈ stack.map Prod.fst, ∀ r, u < r → r < n → Ancestor h u r

namespace Stacked

variable {h : List (Report ι τ)} {stack : List (RecordIndex × Bool)} {n : Nat} {u r : RecordIndex}

theorem nil : Stacked ([] : List (Report ι τ)) [] 0 where
  sorted := .nil
  bounded := by simp
  begun := by simp
  started := by simp
  start_lt := by simp
  parent_lt := by simp [Parent]
  closed := by simp
  above := by simp

theorem quiet (k : Stacked h stack n) {y : Report ι τ} (hy : y.Quiet) :
    Stacked (h ++ [y]) stack n where
  sorted := k.sorted
  bounded := k.bounded
  begun := k.begun
  started a ha := by
    rw [start_mem_snoc_of_quiet hy]
    exact k.started a ha
  start_lt r hr := k.start_lt r ((start_mem_snoc_of_quiet hy).1 hr)
  parent_lt u v p := k.parent_lt u v ((parent_snoc_of_quiet hy).1 p)
  closed v hv u p := k.closed v hv u ((parent_snoc_of_quiet hy).1 p)
  above u hu r hr hn := (k.above u hu r hr hn).append

/-- The head has the greatest number, so it is nobody's parent on the stack. -/
theorem pop {b : Bool} (k : Stacked h ((r, b) :: stack) n) : Stacked h stack n where
  sorted := k.sorted.of_cons
  bounded q hq := k.bounded q (List.mem_cons_of_mem r hq)
  begun a ha := k.begun a (List.mem_of_mem_tail ha)
  started a ha := k.started a (List.mem_cons_of_mem _ ha)
  start_lt := k.start_lt
  parent_lt := k.parent_lt
  closed v hv u p := by
    rcases List.mem_cons.1 (k.closed v (List.mem_cons_of_mem r hv) u p) with rfl | hu
    · have below : v < u := List.rel_of_pairwise_cons k.sorted hv
      exact absurd (k.parent_lt u v p).1 (Nat.lt_asymm below)
    · exact hu
  above q hq := k.above q (List.mem_cons_of_mem r hq)

/-- A record created by an initial state is alone on the stack. -/
theorem root (k : Stacked h [] n) : Stacked h [(n, false)] (n + 1) where
  sorted := List.pairwise_singleton _ _
  bounded r hr := by
    rw [List.mem_singleton.1 hr]
    exact Nat.lt_succ_self n
  begun := by simp
  started a ha := by
    have hn : .event (.start n) ∉ h := fun hs => Nat.lt_irrefl n (k.start_lt n hs)
    rw [List.mem_singleton.1 ha]
    simp [hn]
  start_lt r hr := Nat.lt_succ_of_lt (k.start_lt r hr)
  parent_lt u v p := (k.parent_lt u v p).imp_right Nat.lt_succ_of_lt
  closed v hv u p := by
    rw [List.mem_singleton.1 hv] at p
    exact absurd (k.parent_lt u n p).2 (Nat.lt_irrefl n)
  above u hu r hr hn := by
    rw [List.mem_singleton.1 hu] at hr
    exact absurd hr (Nat.not_lt_of_le (Nat.le_of_lt_succ hn))

theorem start (k : Stacked h ((r, false) :: stack) n) :
    Stacked (h ++ [.event (.start r)]) ((r, true) :: stack) n where
  sorted := k.sorted
  bounded := k.bounded
  begun := k.begun
  started := by
    refine List.forall_mem_cons.2 ⟨by simp, fun a ha => ?_⟩
    have below : a.1 < r := List.rel_of_pairwise_cons k.sorted (List.mem_map_of_mem ha)
    simpa [Nat.ne_of_lt below] using k.started a (List.mem_cons_of_mem _ ha)
  start_lt q hq := by
    rcases List.mem_append.1 hq with hq | hq
    · exact k.start_lt q hq
    · simp only [List.mem_singleton, Report.event.injEq, Event.start.injEq] at hq
      rw [hq]
      exact k.bounded r List.mem_cons_self
  parent_lt u v p := k.parent_lt u v (parent_snoc_start.1 p)
  closed v hv u p := k.closed v hv u (parent_snoc_start.1 p)
  above u hu q hq hn := (k.above u hu q hq hn).append

/-- The target of a tree edge descends from every stacked record. -/
theorem child (k : Stacked h ((u, true) :: stack) n) (i : ι) (x : τ) :
    Stacked (h ++ [.event (.edge .tree u i x n)]) ((n, false) :: (u, true) :: stack) (n + 1) where
  sorted := List.pairwise_cons.2 ⟨k.bounded, k.sorted⟩
  bounded := List.forall_mem_cons.2
    ⟨Nat.lt_succ_self n, fun r hr => Nat.lt_succ_of_lt (k.bounded r hr)⟩
  begun := List.forall_mem_cons.2 ⟨rfl, k.begun⟩
  started := by
    have hn : .event (.start n) ∉ h := fun hs => Nat.lt_irrefl n (k.start_lt n hs)
    refine List.forall_mem_cons.2 ⟨by simpa using hn, fun a ha => ?_⟩
    simpa using k.started a ha
  start_lt q hq := Nat.lt_succ_of_lt (k.start_lt q (by simpa using hq))
  parent_lt a b p := by
    rcases parent_snoc_tree.1 p with p | ⟨rfl, rfl⟩
    · exact (k.parent_lt a b p).imp_right Nat.lt_succ_of_lt
    · exact ⟨k.bounded a List.mem_cons_self, Nat.lt_succ_self b⟩
  closed := by
    refine List.forall_mem_cons.2 ⟨fun a p => ?_, fun v hv a p => ?_⟩
    · rcases parent_snoc_tree.1 p with p | ⟨rfl, -⟩
      · exact absurd (k.parent_lt a n p).2 (Nat.lt_irrefl n)
      · exact List.mem_cons_of_mem n List.mem_cons_self
    · rcases parent_snoc_tree.1 p with p | ⟨-, rfl⟩
      · exact List.mem_cons_of_mem n (k.closed v hv a p)
      · exact absurd (k.bounded v hv) (Nat.lt_irrefl v)
  above := by
    have last : Parent (h ++ [.event (.edge .tree u i x n)]) u n :=
      parent_snoc_tree.2 (.inr ⟨rfl, rfl⟩)
    refine List.forall_mem_cons.2 ⟨fun r hr hn => ?_, fun a ha r hr hn => ?_⟩
    · exact absurd hr (Nat.not_lt_of_le (Nat.le_of_lt_succ hn))
    rcases Nat.lt_succ_iff_lt_or_eq.1 hn with hn | rfl
    · exact (k.above a ha r hr hn).append
    rcases List.mem_cons.1 ha with rfl | ha
    · exact .single last
    · have below : a < u := List.rel_of_pairwise_cons k.sorted ha
      have down := k.above a (List.mem_cons_of_mem u ha) u below (k.bounded u List.mem_cons_self)
      exact down.append.tail last

theorem head_notMem {b : Bool} (k : Stacked h ((r, b) :: stack) n) : r ∉ stack.map Prod.fst :=
  fun hr => Nat.lt_irrefl r (List.rel_of_pairwise_cons k.sorted hr)

theorem ancestor_lt (k : Stacked h stack n) {a b : RecordIndex} (anc : Ancestor h a b) :
    a < b := by
  induction anc with
  | single p => exact (k.parent_lt _ _ p).1
  | tail _ p ih => exact Nat.lt_trans ih (k.parent_lt _ _ p).1

/-- The ancestors of a stacked record are stacked. -/
theorem ancestor_mem (k : Stacked h stack n) {a b : RecordIndex} (anc : Ancestor h a b)
    (hb : b ∈ stack.map Prod.fst) : a ∈ stack.map Prod.fst := by
  induction anc with
  | single p => exact k.closed _ hb a p
  | tail _ p ih => exact ih (k.closed _ hb _ p)

end Stacked

/-- The gray records are the started ones on the stack and the abandoned ones. -/
structure Shaded (h : List (Report ι τ)) (stack : List (RecordIndex × Bool)) (n : Nat)
    (color : RecordIndex → Color) : Prop where
  gray_iff : ∀ r, color r = .gray ↔ (r, true) ∈ stack ∨ Abandoned h r
  not_black : ∀ r ∈ stack.map Prod.fst, color r ≠ .black
  gone : ∀ r, Abandoned h r → r ∉ stack.map Prod.fst
  fresh : ∀ r, n ≤ r → color r = .white

namespace Shaded

variable {h : List (Report ι τ)} {stack : List (RecordIndex × Bool)} {n : Nat} {u r : RecordIndex}
  {color : RecordIndex → Color}

theorem nil : Shaded ([] : List (Report ι τ)) [] 0 fun _ => .white where
  gray_iff := by simp [Abandoned]
  not_black := by simp
  gone := by simp
  fresh := by simp

/-- Only giving up abandons a record. -/
theorem snoc (c : Shaded h stack n color) {y : Report ι τ} (hy : ∀ r, y ≠ .skippedState r) :
    Shaded (h ++ [y]) stack n color := by
  have same : ∀ r, Abandoned (h ++ [y]) r ↔ Abandoned h r := by
    intro r
    simp [abandoned_snoc, hy r]
  exact ⟨fun r => by rw [same]; exact c.gray_iff r, c.not_black,
    fun r hr => c.gone r ((same r).1 hr), c.fresh⟩

/-- A new record is white. -/
theorem push (c : Shaded h stack n color) (k : Stacked h stack n) :
    Shaded h ((n, false) :: stack) (n + 1) color where
  gray_iff r := by simpa using c.gray_iff r
  not_black := by
    refine List.forall_mem_cons.2 ⟨?_, c.not_black⟩
    rw [c.fresh n (Nat.le_refl n)]
    decide
  gone r hr hm := by
    rcases List.mem_cons.1 hm with rfl | hm
    · exact Nat.lt_irrefl _ (k.start_lt _ hr.started)
    · exact c.gone r hr hm
  fresh r hr := c.fresh r (Nat.le_of_succ_le hr)

theorem start (c : Shaded h ((r, false) :: stack) n color)
    (k : Stacked h ((r, false) :: stack) n) :
    Shaded h ((r, true) :: stack) n
      fun q => if q = r then (color q).advance .gray else color q := by
  have hr : (color r).advance .gray = .gray := by
    cases hc : color r with
    | white => rfl
    | gray => rfl
    | black => exact absurd hc (c.not_black r List.mem_cons_self)
  refine ⟨fun q => ?_, fun q hq => ?_, c.gone, fun q hq => ?_⟩
  · by_cases he : q = r
    · simp [he, hr]
    · simpa [he] using c.gray_iff q
  · by_cases he : q = r
    · simp [he, hr]
    · simpa [he] using c.not_black q hq
  · have lt : r < n := k.bounded r List.mem_cons_self
    have he : q ≠ r := Nat.ne_of_gt (Nat.lt_of_lt_of_le lt hq)
    simpa [he] using c.fresh q hq

theorem finish (c : Shaded h ((r, true) :: stack) n color)
    (k : Stacked h ((r, true) :: stack) n) :
    Shaded h stack n fun q => if q = r then (color q).advance .black else color q := by
  have hr : (color r).advance .black = .black := by
    cases color r <;> rfl
  have off : (r, true) ∉ stack := fun hm => k.head_notMem (List.mem_map_of_mem hm)
  have kept : ¬ Abandoned h r := fun ha => c.gone r ha List.mem_cons_self
  refine ⟨fun q => ?_, fun q hq => ?_, fun q hq hm => ?_, fun q hq => ?_⟩
  · by_cases he : q = r
    · simp [he, hr, off, kept]
    · simpa [he] using c.gray_iff q
  · have he : q ≠ r := fun he => k.head_notMem (he ▸ hq)
    simpa [he] using c.not_black q (List.mem_cons_of_mem r hq)
  · exact c.gone q hq (List.mem_cons_of_mem r hm)
  · have lt : r < n := k.bounded r List.mem_cons_self
    have he : q ≠ r := Nat.ne_of_gt (Nat.lt_of_lt_of_le lt hq)
    simpa [he] using c.fresh q hq

/-- A record given up keeps its color, which is gray exactly if it had been started. -/
theorem giveUp {b : Bool} (c : Shaded h ((r, b) :: stack) n color)
    (k : Stacked h ((r, b) :: stack) n) : Shaded (h ++ [.skippedState r]) stack n color := by
  have off : (r, true) ∉ stack := fun hm => k.head_notMem (List.mem_map_of_mem hm)
  have begun : b = true ↔ .event (.start r) ∈ h := k.started (r, b) List.mem_cons_self
  refine ⟨fun q => ?_, fun q hq => ?_, fun q hq hm => ?_, c.fresh⟩
  · rw [c.gray_iff q, abandoned_snoc]
    by_cases he : q = r
    · subst he
      rw [← begun]
      cases b <;> simp [off]
    · simp [he, Ne.symm he]
  · exact c.not_black q (List.mem_cons_of_mem r hq)
  · rcases abandoned_snoc.1 hq with hq | ⟨-, he⟩
    · exact c.gone q hq (List.mem_cons_of_mem r hm)
    · cases he
      exact k.head_notMem hm

end Shaded

/-- The stack and the colors of a depth-first search tell its history. -/
theorem stacked_of_reached {M : TransitionSystem σ ι τ} {A : List ι} {h : List (Report ι τ)}
    {w : View σ ι τ} (reached : View.Reached M A .depthFirst h w) :
    Stacked h w.outline w.states.length ∧ Shaded h w.outline w.states.length w.color := by
  induction reached with
  | begin => exact ⟨.nil, .nil⟩
  | @move h w w' y before last ih =>
    obtain ⟨k, c⟩ := ih
    cases last with
    | event advance =>
      cases advance with
      | known idle unread met => exact ⟨k.quiet trivial, c.snoc (by simp)⟩
      | @root t rest idle unread new =>
        have empty : w.outline = [] := by
          rw [View.outline, idle.resolve_left (by decide)]
          rfl
        rw [View.outline_enter, View.length_enter]
        change Stacked _ (_ :: w.outline) _ ∧ Shaded _ (_ :: w.outline) _ _
        rw [empty] at k c ⊢
        exact ⟨k.root.quiet trivial, (c.push k).snoc (by simp)⟩
      | @start v rest ready head fresh =>
        rw [View.outline_of_cons head, fresh] at k c
        exact ⟨k.start, (c.start k).snoc (by simp)⟩
      | @tree v v' rest i x ready head begun step new =>
        obtain ⟨-, label, -, started, -⟩ := Visit.next_of_some step
        have same := View.outline_of_step head label started
        have cons := View.outline_of_cons head
        rw [begun] at cons
        rw [View.outline_enter, View.length_enter, same]
        rw [cons] at k c ⊢
        exact ⟨k.child i x, (c.push k).snoc (by simp)⟩
      | @edge v v' rest i x r ready head begun step met =>
        obtain ⟨-, label, -, started, -⟩ := Visit.next_of_some step
        rw [View.note_depthFirst, View.outline_of_step head label started]
        exact ⟨k.quiet (quiet_edge (w.kindOf_ne_tree _ _ _)), c.snoc (by simp)⟩
      | @finish v v' rest ready head begun step =>
        rw [View.outline_of_cons head, begun] at k c
        exact ⟨k.pop.quiet trivial, (c.finish k).snoc (by simp)⟩
    | ended unread pending => exact ⟨k.quiet trivial, c.snoc (by simp)⟩
    | @skippedLetter v rest head =>
      rw [View.outline_of_step (a := v.skipLetter) head rfl rfl]
      exact ⟨k.quiet trivial, c.snoc (by simp)⟩
    | @skippedState v rest head =>
      rw [View.outline_of_cons head] at k c
      exact ⟨k.pop.quiet trivial, c.giveUp k⟩
    | refused pending => exact ⟨k.quiet trivial, c.snoc (by simp)⟩
    | modified => exact ⟨k.quiet trivial, c.snoc (by simp)⟩

end Exploration.Search
