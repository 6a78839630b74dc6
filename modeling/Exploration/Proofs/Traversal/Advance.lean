import Exploration.Traversal

/-!
# What one call does to a traversal

Every event comes about in one way. `Advances` lists the ways, with the frontier read as the list
of its pending visits, head first, and says of each what it leaves unchanged. The skips have one
equation for a traversal with a head and one for a traversal without.
-/

namespace Exploration

variable {ε σ ι τ δ : Type} {M : TransitionSystem σ ι τ} {A : List ι} {o : Order}

/-- The entries with a new one among them, where the order puts it. -/
def Order.place : Order → ε → List ε → List ε
  | .breadthFirst, e, es => es ++ [e]
  | .depthFirst, e, es => e :: es

theorem Order.place_perm (o : Order) (e : ε) (es : List ε) : (o.place e es).Perm (e :: es) := by
  cases o with
  | breadthFirst => exact List.perm_append_singleton e es
  | depthFirst => exact .refl _

theorem Order.mem_place {e a : ε} {es : List ε} : a ∈ o.place e es ↔ a = e ∨ a ∈ es :=
  (o.place_perm e es).mem_iff.trans List.mem_cons

theorem Frontier.toList_push (e : ε) (f : Frontier ε) :
    (f.push o e).toList = o.place e f.toList := by
  cases o with
  | breadthFirst => exact f.toList_push_breadthFirst e
  | depthFirst => exact f.toList_push_depthFirst e

/-- The pending visits after the head is given up. -/
def Order.giveUp {κ : Type} : Order → Visit σ ι τ κ → List (Visit σ ι τ κ) → List (Visit σ ι τ κ)
  | .breadthFirst, v, rest => v.skipAll :: rest
  | .depthFirst, _, rest => rest

namespace Traversal

def pending (t : Traversal M A o δ) : List (Visit σ ι τ RecordIndex) := t.frontier.toList

/-- The transition a finished visit leads back along, given the visits that were behind it. -/
def backtrackAlong (o : Order) (rest : List (Visit σ ι τ RecordIndex)) :
    Option (Backtrack ι τ) :=
  match o with
  | .breadthFirst => none
  | .depthFirst =>
    rest.head?.bind fun below => below.last.map fun p => ⟨below.label, p.1, p.2⟩

theorem backtrack_eq (rest : Frontier (Visit σ ι τ RecordIndex)) :
    backtrack o rest = backtrackAlong o rest.toList := by
  cases o with
  | breadthFirst => rfl
  | depthFirst => rw [backtrackAlong, ← rest.head?_eq]; rfl

inductive Advances (t : Traversal M A o δ) : Event σ ι τ → Traversal M A o δ → Prop
  | initial {s : σ} {u : Traversal M A o δ} (idle : o = .breadthFirst ∨ t.pending = [])
      (unread : t.unread = s :: u.unread) (records : u.records = t.records)
      (pending : u.pending = t.pending) : Advances t (.initial s) u
  | start {v : Visit σ ι τ RecordIndex} {rest : List (Visit σ ι τ RecordIndex)}
      {u : Traversal M A o δ} (ready : o = .depthFirst ∨ t.unread = [])
      (head : t.pending = v :: rest) (fresh : v.started = false)
      (unread : u.unread = t.unread) (records : u.records = t.records)
      (pending : u.pending = v.start :: rest) : Advances t (.start v.label v.state) u
  | edge {v w : Visit σ ι τ RecordIndex} {rest : List (Visit σ ι τ RecordIndex)} {p : ι × τ}
      {u : Traversal M A o δ} (ready : o = .depthFirst ∨ t.unread = [])
      (head : t.pending = v :: rest) (begun : v.started = true)
      (step : v.next M = (some p, w)) (unread : u.unread = t.unread)
      (records : u.records = t.records) (pending : u.pending = w :: rest) :
      Advances t (.edge v.label p.1 p.2 (M.successor p.2)) u
  | finish {v w : Visit σ ι τ RecordIndex} {rest : List (Visit σ ι τ RecordIndex)}
      {u : Traversal M A o δ} (ready : o = .depthFirst ∨ t.unread = [])
      (head : t.pending = v :: rest) (begun : v.started = true)
      (step : v.next M = (none, w)) (unread : u.unread = t.unread)
      (records : u.records = t.records) (pending : u.pending = rest) :
      Advances t (.finish v.label v.state (backtrackAlong o rest)) u

theorem advances_of_resume {t u : Traversal M A o δ} {e : Event σ ι τ}
    (ready : o = .depthFirst ∨ t.unread = []) (h : t.resume = (some e, u)) : t.Advances e u := by
  rw [resume] at h
  split at h
  · cases h
  · next v rest hp =>
    have head : t.pending = v :: rest.toList := Frontier.toList_of_pop?_eq_some hp
    split at h
    · next begun =>
      split at h
      · next p w step =>
        obtain ⟨he, rfl⟩ := Prod.mk.inj h
        cases he
        exact .edge ready head begun step rfl rfl rfl
      · next w step =>
        obtain ⟨he, rfl⟩ := Prod.mk.inj h
        cases he
        rw [backtrack_eq]
        exact .finish ready head begun step rfl rfl rfl
    · next fresh =>
      obtain ⟨he, rfl⟩ := Prod.mk.inj h
      cases he
      exact .start ready head (eq_false_of_ne_true fresh) rfl rfl rfl

theorem advances_of_next {t u : Traversal M A o δ} {e : Event σ ι τ}
    (h : t.next = (some e, u)) : t.Advances e u := by
  rw [next] at h
  split at h
  · next idle =>
    split at h
    · next s rest unread =>
      obtain ⟨he, rfl⟩ := Prod.mk.inj h
      cases he
      exact .initial (idle.imp_right Frontier.isEmpty_iff.1) unread rfl rfl
    · next unread => exact advances_of_resume (.inr unread) h
  · next busy =>
    have deep : o = .depthFirst := by
      cases o with
      | breadthFirst => exact absurd (.inl rfl) busy
      | depthFirst => rfl
    exact advances_of_resume (.inl deep) h

/-- A traversal with a visit pending has an event left. -/
theorem next_of_cons {t : Traversal M A o δ} {v : Visit σ ι τ RecordIndex}
    {rest : List (Visit σ ι τ RecordIndex)} (h : t.pending = v :: rest) :
    ∃ e u, t.next = (some e, u) ∧ t.Advances e u := by
  cases hn : t.next with
  | mk e u =>
    cases e with
    | some e => exact ⟨e, u, rfl, advances_of_next hn⟩
    | none =>
      have empty : t.pending = [] := (next_eq_none_iff.1 (congrArg Prod.fst hn)).2
      rw [empty] at h
      cases h

theorem skipLetter_of_nil {t : Traversal M A o δ} (h : t.pending = []) :
    t.skipLetter = (.error .idle, t) := by
  rw [skipLetter, Frontier.pop?_eq_none_iff.2 h]

theorem skipState_of_nil {t : Traversal M A o δ} (h : t.pending = []) :
    t.skipState = (.error .idle, t) := by
  rw [skipState, Frontier.pop?_eq_none_iff.2 h]

/-- A frontier with a head gives it up together with the entries behind it. -/
theorem pop?_of_cons {t : Traversal M A o δ} {v : Visit σ ι τ RecordIndex}
    {rest : List (Visit σ ι τ RecordIndex)} (h : t.pending = v :: rest) :
    ∃ f, t.frontier.pop? = some (v, f) ∧ f.toList = rest := by
  cases hp : t.frontier.pop? with
  | none =>
    have hn : t.pending = [] := Frontier.pop?_eq_none_iff.1 hp
    rw [hn] at h
    cases h
  | some q =>
    have hq : t.pending = q.1 :: q.2.toList := Frontier.toList_of_pop?_eq_some hp
    obtain ⟨hv, hr⟩ := List.cons.inj (h.symm.trans hq)
    exact ⟨q.2, by rw [hv], hr.symm⟩

theorem skipLetter_of_cons {t : Traversal M A o δ} {v : Visit σ ι τ RecordIndex}
    {rest : List (Visit σ ι τ RecordIndex)} (h : t.pending = v :: rest) :
    ∃ u, t.skipLetter = (.ok (), u) ∧ u.unread = t.unread ∧ u.records = t.records ∧
      u.pending = v.skipLetter :: rest := by
  obtain ⟨f, hf, rfl⟩ := pop?_of_cons h
  refine ⟨⟨t.unread, t.records, f.pushFront v.skipLetter⟩, ?_, rfl, rfl, rfl⟩
  rw [skipLetter, hf]

theorem skipState_of_cons {t : Traversal M A o δ} {v : Visit σ ι τ RecordIndex}
    {rest : List (Visit σ ι τ RecordIndex)} (h : t.pending = v :: rest) :
    ∃ u, t.skipState = (.ok (), u) ∧ u.unread = t.unread ∧ u.records = t.records ∧
      u.pending = o.giveUp v rest := by
  obtain ⟨f, hf, rfl⟩ := pop?_of_cons h
  cases o with
  | breadthFirst =>
    refine ⟨⟨t.unread, t.records, f.pushFront v.skipAll⟩, ?_, rfl, rfl, rfl⟩
    rw [skipState, hf]
  | depthFirst =>
    refine ⟨⟨t.unread, t.records, f⟩, ?_, rfl, rfl, rfl⟩
    rw [skipState, hf]

end Traversal

end Exploration
