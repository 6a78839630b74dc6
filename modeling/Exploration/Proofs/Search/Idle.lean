import Exploration.Proofs.Search.Coloring
import Exploration.Proofs.Traversal.Idle

/-!
# Skips of a search with nothing to skip

What a call does to the records whose visits are pending it does in one of three ways: it leaves
them, it adds a new one, or it ends the first. So the records that were created and are not pending
are those that came to their end, and a skip fails when they are all. Once a search has reported
that nothing is left, nothing but the data can change any more.
-/

namespace Exploration.Search

section Views

variable {σ ι τ : Type} {M : TransitionSystem σ ι τ} {A : List ι} {o : Order}
  {w w' : View σ ι τ} {y : Report ι τ} {h : List (Report ι τ)}

/-- The report ends the visit of the record. -/
def Report.Ends (o : Order) (y : Report ι τ) (r : RecordIndex) : Prop :=
  (∃ b, y = .event (.finish r b)) ∨ o = .depthFirst ∧ y = .skippedState r

/-- The records of the pending visits, head first. -/
def View.labels (w : View σ ι τ) : List RecordIndex := w.pending.map Visit.label

theorem View.labels_enter (A : List ι) (o : Order) (w : View σ ι τ) (t : σ) :
    (w.enter A o t).labels = o.place w.states.length w.labels := by
  rw [labels, enter, Order.map_place]
  rfl

/-- What a call does to the pending records. -/
inductive Shifts (o : Order) (w : View σ ι τ) (y : Report ι τ) (w' : View σ ι τ) : Prop
  | stay (labels : w'.labels = w.labels) (count : w'.states.length = w.states.length)
      (ends : ∀ q, ¬ y.Ends o q)
  | push (labels : w'.labels = o.place w.states.length w.labels)
      (count : w'.states.length = w.states.length + 1) (ends : ∀ q, ¬ y.Ends o q)
  | pop {r : RecordIndex} (labels : w.labels = r :: w'.labels)
      (count : w'.states.length = w.states.length) (ends : ∀ q, y.Ends o q ↔ q = r)

theorem View.Moves.shifts (m : w.Moves M A o y w') : Shifts o w y w' := by
  have lasts {e : Event ι τ} (he : ∀ r b, e ≠ .finish r b) (q : RecordIndex) :
      ¬ (Report.event e).Ends o q := by
    rintro (⟨b, same⟩ | ⟨-, same⟩)
    · exact he q b (Report.event.inj same)
    · cases same
  -- The visit at the head goes on as `a`.
  have step {v a : Visit σ ι τ RecordIndex} {rest : List (Visit σ ι τ RecordIndex)}
      (head : w.pending = v :: rest) (label : a.label = v.label) :
      (w.withPending (a :: rest)).labels = w.labels := by
    rw [View.labels, View.labels, head]
    exact congrArg (· :: _) label
  cases m with
  | event advance =>
    cases advance with
    | known idle unread met => exact .stay rfl rfl (lasts (by simp))
    | root idle unread new =>
      exact .push (View.labels_enter A o _ _) (View.length_enter A o _ _) (lasts (by simp))
    | start ready head fresh =>
      exact .stay (step (a := Visit.start _) head rfl) rfl (lasts (by simp))
    | tree ready head begun next new =>
      refine .push ?_ (View.length_enter A o _ _) (lasts (by simp))
      rw [View.labels_enter, step head (Visit.next_of_some next).2.1]
      rfl
    | edge ready head begun next met =>
      refine .stay ?_ ?_ (lasts (by simp))
      · rw [View.labels, pending_note]
        exact step head (Visit.next_of_some next).2.1
      · rw [states_note]
        rfl
    | @finish v v' rest ready head begun next =>
      refine .pop (r := v.label) ?_ rfl fun q => ?_
      · rw [View.labels, head]
        rfl
      · simp [Report.Ends, eq_comm]
  | ended unread pending => exact .stay rfl rfl (by simp [Report.Ends])
  | skippedLetter head =>
    exact .stay (step (a := Visit.skipLetter _) head rfl) rfl (by simp [Report.Ends])
  | @skippedState v rest head =>
    cases o with
    | breadthFirst => exact .stay (step (a := Visit.skipAll _) head rfl) rfl (by simp [Report.Ends])
    | depthFirst =>
      refine .pop (r := v.label) ?_ rfl fun q => ?_
      · rw [View.labels, head]
        rfl
      · simp [Report.Ends, eq_comm]
  | refused pending => exact .stay rfl rfl (by simp [Report.Ends])
  | modified => exact .stay rfl rfl (by simp [Report.Ends])

/-- Of the `n` records created in the history `h` those that are not at `labels` have ended. -/
structure Tended (o : Order) (h : List (Report ι τ)) (labels : List RecordIndex) (n : Nat) :
    Prop where
  nodup : labels.Nodup
  below : ∀ r ∈ labels, r < n
  ended (r : Nat) : (∃ y ∈ h, y.Ends o r) ↔ r < n ∧ r ∉ labels

theorem exists_ends_snoc {r : RecordIndex} :
    (∃ x ∈ h ++ [y], x.Ends o r) ↔ (∃ x ∈ h, x.Ends o r) ∨ y.Ends o r := by
  simp [or_and_right, exists_or]

namespace Tended

variable {labels : List RecordIndex} {n r : Nat}

theorem nil : Tended o ([] : List (Report ι τ)) [] 0 where
  nodup := .nil
  below := by simp
  ended := by simp

theorem stay (k : Tended o h labels n) (ends : ∀ q, ¬ y.Ends o q) :
    Tended o (h ++ [y]) labels n where
  nodup := k.nodup
  below := k.below
  ended q := by
    rw [exists_ends_snoc, or_iff_left (ends q)]
    exact k.ended q

theorem push (k : Tended o h labels n) (ends : ∀ q, ¬ y.Ends o q) :
    Tended o (h ++ [y]) (o.place n labels) (n + 1) where
  nodup := by
    have new : n ∉ labels := fun hn => Nat.lt_irrefl n (k.below n hn)
    exact (o.place_perm n labels).nodup_iff.2 (List.nodup_cons.2 ⟨new, k.nodup⟩)
  below q hq := by
    rcases Order.mem_place.1 hq with rfl | hq
    · exact Nat.lt_succ_self q
    · exact Nat.lt_succ_of_lt (k.below q hq)
  ended q := by
    rw [exists_ends_snoc, or_iff_left (ends q), k.ended, Order.mem_place, not_or]
    constructor
    · rintro ⟨lt, gone⟩
      exact ⟨by omega, by omega, gone⟩
    · rintro ⟨lt, old, gone⟩
      exact ⟨by omega, gone⟩

theorem pop (k : Tended o h (r :: labels) n) (ends : ∀ q, y.Ends o q ↔ q = r) :
    Tended o (h ++ [y]) labels n where
  nodup := (List.nodup_cons.1 k.nodup).2
  below q hq := k.below q (List.mem_cons_of_mem r hq)
  ended q := by
    rw [exists_ends_snoc, ends, k.ended, List.mem_cons, not_or]
    by_cases head : q = r
    · subst head
      have lt : q < n := k.below q List.mem_cons_self
      have once : q ∉ labels := (List.nodup_cons.1 k.nodup).1
      simp [lt, once]
    · simp [head]

end Tended

theorem tended_of_reached (reached : View.Reached M A o h w) :
    Tended o h w.labels w.states.length := by
  induction reached with
  | begin => exact .nil
  | move before last k =>
    cases last.shifts with
    | stay labels count ends =>
      rw [labels, count]
      exact k.stay ends
    | push labels count ends =>
      rw [labels, count]
      exact k.push ends
    | pop labels count ends =>
      rw [labels] at k
      rw [count]
      exact k.pop ends

/-- Nothing is pending when every record created so far has come to its end. -/
theorem View.Reached.pending_eq_nil_iff (reached : View.Reached M A o h w) :
    w.pending = [] ↔ ∀ r < w.states.length,
      Finished h r ∨ o = .depthFirst ∧ .skippedState r ∈ h := by
  have k := tended_of_reached reached
  have ends (r : RecordIndex) :
      (∃ y ∈ h, y.Ends o r) ↔ Finished h r ∨ o = .depthFirst ∧ .skippedState r ∈ h := by
    constructor
    · rintro ⟨y, hy, ⟨b, rfl⟩ | ⟨deep, rfl⟩⟩
      · exact .inl ⟨b, hy⟩
      · exact .inr ⟨deep, hy⟩
    · rintro (⟨b, hy⟩ | ⟨deep, hy⟩)
      · exact ⟨_, hy, .inl ⟨b, rfl⟩⟩
      · exact ⟨_, hy, .inr ⟨deep, rfl⟩⟩
  constructor
  · intro empty r lt
    rw [← ends, k.ended, View.labels, empty]
    exact ⟨lt, List.not_mem_nil⟩
  · intro settled
    rw [List.eq_nil_iff_forall_not_mem]
    intro v hv
    have mem : v.label ∈ w.labels := List.mem_map_of_mem hv
    have ended := (ends v.label).2 (settled v.label (k.below v.label mem))
    exact ((k.ended v.label).1 ended).2 mem

/-- A search with nothing left stays so. -/
theorem View.Moves.idle (m : w.Moves M A o y w') (unread : w.unread = [])
    (pending : w.pending = []) : w'.unread = [] ∧ w'.pending = [] := by
  cases m with
  | event advance => cases advance <;> simp_all
  | ended => exact ⟨unread, pending⟩
  | skippedLetter head => simp_all
  | skippedState head => simp_all
  | refused => exact ⟨unread, pending⟩
  | modified => exact ⟨unread, pending⟩

theorem View.Reached.idle_of_ended (reached : View.Reached M A o h w) (ended : .ended ∈ h) :
    w.unread = [] ∧ w.pending = [] := by
  induction reached with
  | begin => cases ended
  | move before last ih =>
    rcases List.mem_append.1 ended with earlier | now
    · obtain ⟨unread, pending⟩ := ih earlier
      exact last.idle unread pending
    · obtain rfl := List.mem_singleton.1 now
      cases last with
      | ended unread pending => exact ⟨unread, pending⟩

end Views

variable {σ ι τ δ : Type} [DecidableEq σ] [Hashable σ] {M : TransitionSystem σ ι τ} {A : List ι}
  {o : Order} {s : Search M A o δ}

/-- A skip that fails hands back the search as it was. -/
theorem skipLetter_eq_error_iff {e : Error} {u : Search M A o δ} :
    s.skipLetter = (.error e, u) ↔ e = .idle ∧ u = s ∧ s.view.pending = [] := by
  change _ ↔ e = .idle ∧ u = s ∧ s.traversal.pending = []
  cases hp : s.traversal.pending with
  | nil =>
    rw [skipLetter_of_nil hp]
    simp [eq_comm]
  | cons v rest =>
    obtain ⟨t, ht, -⟩ := Traversal.skipLetter_of_cons hp
    simp [skipLetter, ht]

theorem skipState_eq_error_iff {e : Error} {u : Search M A o δ} :
    s.skipState = (.error e, u) ↔ e = .idle ∧ u = s ∧ s.view.pending = [] := by
  change _ ↔ e = .idle ∧ u = s ∧ s.traversal.pending = []
  cases hp : s.traversal.pending with
  | nil =>
    rw [skipState_of_nil hp]
    simp [eq_comm]
  | cons v rest =>
    obtain ⟨t, ht, -⟩ := Traversal.skipState_of_cons hp
    simp [skipState, ht]

variable [Inhabited δ]

/-- A skip that has nothing to hit is refused. -/
theorem perform_skip_of_nil (empty : s.view.pending = []) {m : Move δ}
    (skip : m = .skipLetter ∨ m = .skipState) : s.perform m = (.refused, s) := by
  rcases skip with rfl | rfl
  · rw [perform, head?_of_nil empty, skipLetter_of_nil empty]
  · rw [perform, head?_of_nil empty, skipState_of_nil empty]

/-- It changes nothing that is called later. -/
theorem play_skip_of_nil (empty : s.view.pending = []) {m : Move δ}
    (skip : m = .skipLetter ∨ m = .skipState) (ns : List (Move δ)) :
    s.play (m :: ns) = (.refused :: (s.play ns).1, (s.play ns).2) := by
  rw [play, perform_skip_of_nil empty skip]

/-- What a call reports when nothing is left. -/
def Move.vain : Move δ → Report ι τ
  | .next => .ended
  | .skipLetter => .refused
  | .skipState => .refused
  | .modifyData _ _ => .modified

/-- What a call changes when nothing is left. -/
def alter (s : Search M A o δ) : Move δ → Search M A o δ
  | .next => s
  | .skipLetter => s
  | .skipState => s
  | .modifyData r change => s.modifyData r change

omit [Inhabited δ] in
theorem view_alter (s : Search M A o δ) (m : Move δ) : (s.alter m).view = s.view := by
  cases m with
  | next => rfl
  | skipLetter => rfl
  | skipState => rfl
  | modifyData r change => exact s.view_modifyData r change

theorem perform_of_idle (unread : s.view.unread = []) (pending : s.view.pending = []) (m : Move δ) :
    s.perform m = (m.vain, s.alter m) := by
  cases m with
  | next =>
    have ended := next_eq_none_iff.2 ⟨unread, pending⟩
    have hs : s.next = (none, s) := Prod.ext ended (next_of_none (Prod.ext ended rfl))
    rw [perform, hs]
    rfl
  | skipLetter => exact perform_skip_of_nil pending (.inl rfl)
  | skipState => exact perform_skip_of_nil pending (.inr rfl)
  | modifyData r change => rfl

/-- When nothing is left, later calls change the data they are told to change and nothing else. -/
theorem play_of_idle (unread : s.view.unread = []) (pending : s.view.pending = [])
    (ns : List (Move δ)) : s.play ns = (ns.map Move.vain, ns.foldl alter s) := by
  induction ns generalizing s with
  | nil => rfl
  | cons m ns ih =>
    have same := s.view_alter m
    rw [play, perform_of_idle unread pending, ih (same ▸ unread) (same ▸ pending)]
    rfl

omit [Inhabited δ] in
theorem view_foldl_alter (s : Search M A o δ) (ns : List (Move δ)) :
    (ns.foldl alter s).view = s.view := by
  induction ns generalizing s with
  | nil => rfl
  | cons m ns ih => exact (ih (s.alter m)).trans (s.view_alter m)

/-- The search `u` has nothing left, and the data of its records are all in which it may differ
from `s`. -/
structure Over (s u : Search M A o δ) : Prop where
  next : u.next = (none, u)
  skipLetter : u.skipLetter = (.error .idle, u)
  skipState : u.skipState = (.error .idle, u)
  recordCount : u.recordCount = s.recordCount
  state (r : RecordIndex) : (u.record? r).map (·.state) = (s.record? r).map (·.state)
  color (r : RecordIndex) : u.color r = s.color r
  find (t : σ) : u.find? t = s.find? t

theorem Coherent.over {u : Search M A o δ} (c : s.Coherent) (cu : u.Coherent)
    (same : u.view = s.view) (unread : s.view.unread = []) (pending : s.view.pending = []) :
    Over s u where
  next := by
    rw [← same] at unread pending
    have ended := next_eq_none_iff.2 ⟨unread, pending⟩
    exact Prod.ext ended (next_of_none (Prod.ext ended rfl))
  skipLetter := skipLetter_eq_error_iff.2 ⟨rfl, rfl, same ▸ pending⟩
  skipState := skipState_eq_error_iff.2 ⟨rfl, rfl, same ▸ pending⟩
  recordCount := by
    have states : u.states = s.states := congrArg View.states same
    rw [← u.length_states, states, s.length_states]
  state r := by
    have states : u.states = s.states := congrArg View.states same
    rw [← u.getElem?_states, states, s.getElem?_states]
  color r := congrFun (congrArg View.color same) r
  find t := by
    have states : u.states = s.states := congrArg View.states same
    apply Option.ext
    intro r
    rw [cu.find, states, c.find]

/-- A skip fails exactly when every record scheduled so far was finished or, depth-first, given up.
It then leaves everything as it is, so that whatever is called after it gives what it would have
given without it. A search that has reported its end reports nothing more, and nothing but data
changes in it. -/
theorem skip_fails_iff {ε : Type} (M : TransitionSystem σ ι τ) (A : List ι) (o : Order) :
    (∀ ms : List (Traversal.Move σ ε),
      let p := (Traversal.begin M A o ε).play ms
      let settled := ∀ r, .scheduled r ∈ p.1 →
        (∃ s b, .event (.finish r s b) ∈ p.1) ∨ o = .depthFirst ∧ .skippedState r ∈ p.1
      (∀ e u, p.2.skipLetter = (.error e, u) ↔ e = .idle ∧ u = p.2 ∧ settled) ∧
      (∀ e u, p.2.skipState = (.error e, u) ↔ e = .idle ∧ u = p.2 ∧ settled) ∧
      (settled → ∀ m, m = .skipLetter ∨ m = .skipState → ∀ ns,
        p.2.play (m :: ns) = (.refused :: (p.2.play ns).1, (p.2.play ns).2))) ∧
    ∀ ms : List (Move δ),
      let p := (begin M A o δ).play ms
      let settled := ∀ r < p.2.recordCount,
        (∃ b, .event (.finish r b) ∈ p.1) ∨ o = .depthFirst ∧ .skippedState r ∈ p.1
      (∀ e u, p.2.skipLetter = (.error e, u) ↔ e = .idle ∧ u = p.2 ∧ settled) ∧
      (∀ e u, p.2.skipState = (.error e, u) ↔ e = .idle ∧ u = p.2 ∧ settled) ∧
      (settled → ∀ m, m = .skipLetter ∨ m = .skipState → ∀ ns,
        p.2.play (m :: ns) = (.refused :: (p.2.play ns).1, (p.2.play ns).2)) ∧
      (.ended ∈ p.1 → ∀ ns,
        p.2.play ns = (ns.map Move.vain, ns.foldl alter p.2) ∧ Over p.2 (p.2.play ns).2) := by
  constructor
  · intro ms p settled
    have reached : Traversal.Reached M A o p.1 p.2 := Traversal.reached_of_play rfl
    have idle : p.2.pending = [] ↔ settled := reached.pending_eq_nil_iff
    rw [← idle]
    exact ⟨fun _ _ => Traversal.skipLetter_eq_error_iff,
      fun _ _ => Traversal.skipState_eq_error_iff,
      fun empty _ skip => Traversal.play_skip_of_nil empty skip⟩
  · intro ms p settled
    obtain ⟨c, reached⟩ : p.2.Coherent ∧ View.Reached M A o p.1 p.2.view := reached_of_play rfl
    have idle : p.2.view.pending = [] ↔ settled := by
      rw [reached.pending_eq_nil_iff]
      change (∀ r < p.2.states.length, _) ↔ _
      rw [p.2.length_states]
      rfl
    rw [← idle]
    refine ⟨fun _ _ => skipLetter_eq_error_iff, fun _ _ => skipState_eq_error_iff,
      fun empty _ skip => play_skip_of_nil empty skip, fun ended ns => ?_⟩
    obtain ⟨unread, pending⟩ := reached.idle_of_ended ended
    have later := play_of_idle unread pending ns
    have same : (p.2.play ns).2.view = p.2.view := by
      rw [later]
      exact p.2.view_foldl_alter ns
    exact ⟨later, c.over (c.play reached ns).1 same unread pending⟩

/-- Depth-first nothing is pending between two initial states once the first is given up. -/
example : ((begin Traversal.relay ['a'] .depthFirst Unit).play
      [.skipLetter, .next, .skipState, .skipState, .next]).1 =
    [.refused, .event (.initial 0), .skippedState 0, .refused, .event (.initial 1)] := by
  cbv

end Exploration.Search
