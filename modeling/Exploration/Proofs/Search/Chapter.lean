import Mathlib.Algebra.GroupWithZero.Nat
import Mathlib.Data.List.Forall2
import Mathlib.Data.List.Nodup
import Exploration.System.Path
import Exploration.Proofs.Search.History

/-!
# The chapters of a search

A search that nobody interferes with tells of each record one chapter: its start, an edge for
each transition of its state, its finish. The chapters of different records may be interleaved.
`Recounts` ties what was told to the view: the chapter of a pending visit is told as far as the
visit has come, all others are told to their ends, and every event used up one of those the
states met so far are good for.
-/

namespace Exploration.Search

variable {σ ι τ : Type}

/-- The record an initial state was reported with. -/
def Event.root? : Event ι τ → Option RecordIndex
  | .initial r => some r
  | .start _ => none
  | .edge _ _ _ _ _ => none
  | .finish _ _ => none

/-- The record in whose exploration an event falls. -/
def Event.explored? : Event ι τ → Option RecordIndex
  | .initial _ => none
  | .start r => some r
  | .edge _ u _ _ _ => some u
  | .finish r _ => some r

def chapter (r : RecordIndex) (evs : List (Event ι τ)) : List (Event ι τ) :=
  evs.filter fun e => e.explored? = some r

theorem chapter_snoc_of_eq {e : Event ι τ} {r : RecordIndex} (h : e.explored? = some r)
    (evs : List (Event ι τ)) : chapter r (evs ++ [e]) = chapter r evs ++ [e] := by
  simp [chapter, h]

theorem chapter_snoc_of_ne {e : Event ι τ} {r : RecordIndex} (h : e.explored? ≠ some r)
    (evs : List (Event ι τ)) : chapter r (evs ++ [e]) = chapter r evs := by
  simp [chapter, h]

/-- The events are edges from `r`, one along each of the transitions, to the record of its
successor. -/
def Follows (M : TransitionSystem σ ι τ) (states : List σ) (r : RecordIndex) :
    List (Event ι τ) → List (ι × τ) → Prop :=
  List.Forall₂ fun e p => ∃ k v, e = .edge k r p.1 p.2 v ∧ states[v]? = some (M.successor p.2)

/-- The whole chapter of a record of the state `t`. -/
def Told (M : TransitionSystem σ ι τ) (A : List ι) (states : List σ) (evs : List (Event ι τ))
    (r : RecordIndex) (t : σ) : Prop :=
  ∃ es b, chapter r evs = .start r :: es ++ [.finish r b] ∧
    Follows M states r es (M.outgoing A t)

/-- The chapter of a pending visit, told as far as the visit has come. -/
inductive Underway (M : TransitionSystem σ ι τ) (A : List ι) (states : List σ)
    (evs : List (Event ι τ)) (v : Visit σ ι τ RecordIndex) : Prop
  | planned (fresh : v.started = false) (untold : chapter v.label evs = [])
      (whole : v.pending M = M.outgoing A v.state) : Underway M A states evs v
  | begun {es : List (Event ι τ)} {ps : List (ι × τ)} (begun : v.started = true)
      (told : chapter v.label evs = .start v.label :: es) (follows : Follows M states v.label es ps)
      (rest : M.outgoing A v.state = ps ++ v.pending M) : Underway M A states evs v

/-- The events still to come of a visit. -/
def eventsDue (M : TransitionSystem σ ι τ) (v : Visit σ ι τ RecordIndex) : Nat :=
  (v.pending M).length + if v.started then 1 else 2

theorem eventsDue_of_next {M : TransitionSystem σ ι τ} {v v' : Visit σ ι τ RecordIndex}
    {p : ι × τ} (step : v.next M = (some p, v')) : eventsDue M v = eventsDue M v' + 1 := by
  obtain ⟨pending, -, -, started, -⟩ := Visit.next_of_some step
  simp only [eventsDue, pending, started, List.length_cons]
  omega

/-- All events of the chapter of a state. -/
def chapterLength (M : TransitionSystem σ ι τ) (A : List ι) (t : σ) : Nat :=
  (M.outgoing A t).length + 2

structure Recounts (M : TransitionSystem σ ι τ) (A : List ι) (evs : List (Event ι τ))
    (w : View σ ι τ) : Prop where
  nodup : w.states.Nodup
  reachable : ∀ t ∈ w.states, M.Reachable A t
  roots : (evs.filterMap Event.root?).map (w.states[·]?) ++ w.unread.map some =
    M.initial.map some
  labels : (w.pending.map Visit.label).Nodup
  met : ∀ v ∈ w.pending, w.states[v.label]? = some v.state
  underway : ∀ v ∈ w.pending, Underway M A w.states evs v
  told : ∀ r t, w.states[r]? = some t → r ∉ w.pending.map Visit.label →
    Told M A w.states evs r t ∧ w.color r = .black
  untold : ∀ r, w.states.length ≤ r → chapter r evs = []
  balance : evs.length + w.unread.length + (w.pending.map (eventsDue M)).sum =
    M.initial.length + (w.states.map (chapterLength M A)).sum

section Growth

variable {M : TransitionSystem σ ι τ} {A : List ι} {states : List σ} {evs : List (Event ι τ)}
  {r : RecordIndex} {t : σ}

theorem Follows.grow {es : List (Event ι τ)} {ps : List (ι × τ)}
    (h : Follows M states r es ps) (u : σ) : Follows M (states ++ [u]) r es ps := by
  apply List.Forall₂.imp _ h
  rintro e p ⟨k, v, he, hv⟩
  exact ⟨k, v, he, View.getElem?_snoc_of_some hv u⟩

theorem Follows.met {es : List (Event ι τ)} {ps : List (ι × τ)} {p : ι × τ}
    (h : Follows M states r es ps) (hp : p ∈ ps) : M.successor p.2 ∈ states := by
  induction h with
  | nil => cases hp
  | cons first _ ih =>
    rcases List.mem_cons.1 hp with rfl | hp
    · obtain ⟨k, v, -, hv⟩ := first
      exact List.mem_of_getElem? hv
    · exact ih hp

theorem Follows.snoc {es : List (Event ι τ)} {ps : List (ι × τ)} {k : EdgeKind}
    {v : RecordIndex} {i : ι} {x : τ} (h : Follows M states r es ps)
    (hv : states[v]? = some (M.successor x)) :
    Follows M states r (es ++ [.edge k r i x v]) (ps ++ [(i, x)]) :=
  List.rel_append h (.cons ⟨k, v, rfl, hv⟩ .nil)

theorem Underway.grow {v : Visit σ ι τ RecordIndex} (h : Underway M A states evs v) (u : σ) :
    Underway M A (states ++ [u]) evs v := by
  cases h with
  | planned fresh untold whole => exact .planned fresh untold whole
  | begun begun told follows rest => exact .begun begun told (follows.grow u) rest

theorem Underway.snoc {v : Visit σ ι τ RecordIndex} {e : Event ι τ}
    (h : Underway M A states evs v) (he : e.explored? ≠ some v.label) :
    Underway M A states (evs ++ [e]) v := by
  cases h with
  | planned fresh untold whole =>
    exact .planned fresh (by rw [chapter_snoc_of_ne he, untold]) whole
  | begun begun told follows rest =>
    exact .begun begun (by rw [chapter_snoc_of_ne he, told]) follows rest

theorem Told.grow (h : Told M A states evs r t) (u : σ) : Told M A (states ++ [u]) evs r t := by
  obtain ⟨es, b, hc, hf⟩ := h
  exact ⟨es, b, hc, hf.grow u⟩

theorem Told.snoc {e : Event ι τ} (h : Told M A states evs r t) (he : e.explored? ≠ some r) :
    Told M A states (evs ++ [e]) r t := by
  obtain ⟨es, b, hc, hf⟩ := h
  exact ⟨es, b, by rw [chapter_snoc_of_ne he, hc], hf⟩

theorem Underway.start {v : Visit σ ι τ RecordIndex} (h : Underway M A states evs v)
    (fresh : v.started = false) :
    Underway M A states (evs ++ [.start v.label]) v.start := by
  cases h with
  | planned _ untold whole =>
    have told : chapter v.start.label (evs ++ [.start v.label]) = [.start v.label] := by
      rw [show v.start.label = v.label from rfl, chapter_snoc_of_eq rfl, untold]
      rfl
    exact .begun rfl told .nil whole.symm
  | begun begun =>
    rw [fresh] at begun
    cases begun

theorem Underway.edge {v v' : Visit σ ι τ RecordIndex} {k : EdgeKind} {i : ι} {x : τ}
    {q : RecordIndex} (h : Underway M A states evs v) (begun : v.started = true)
    (step : v.next M = (some (i, x), v')) (hq : states[q]? = some (M.successor x)) :
    Underway M A states (evs ++ [.edge k v.label i x q]) v' := by
  obtain ⟨pending, label, state, started, -⟩ := Visit.next_of_some step
  cases h with
  | planned fresh =>
    rw [fresh] at begun
    cases begun
  | @begun es ps _ told follows rest =>
    have more : chapter v'.label (evs ++ [.edge k v.label i x q]) =
        .start v'.label :: (es ++ [.edge k v.label i x q]) := by
      rw [label, chapter_snoc_of_eq rfl, told]
      rfl
    have taken : Follows M states v'.label (es ++ [.edge k v.label i x q]) (ps ++ [(i, x)]) := by
      rw [label]
      exact follows.snoc hq
    refine .begun (started.trans begun) more taken ?_
    rw [state, rest, pending, List.append_assoc]
    rfl

theorem Underway.mem_outgoing {v : Visit σ ι τ RecordIndex} {p : ι × τ}
    (h : Underway M A states evs v) (hp : p ∈ v.pending M) : p ∈ M.outgoing A v.state := by
  cases h with
  | planned _ _ whole => exact whole ▸ hp
  | begun _ _ _ rest =>
    rw [rest]
    exact List.mem_append_right _ hp

theorem Underway.finish {v v' : Visit σ ι τ RecordIndex} (h : Underway M A states evs v)
    (begun : v.started = true) (step : v.next M = (none, v')) (b : Option (Backtrack ι τ)) :
    Told M A states (evs ++ [.finish v.label b]) v.label v.state := by
  cases h with
  | planned fresh =>
    rw [fresh] at begun
    cases begun
  | @begun es ps _ told follows rest =>
    rw [Visit.pending_of_none step, List.append_nil] at rest
    refine ⟨es, b, ?_, rest ▸ follows⟩
    rw [chapter_snoc_of_eq rfl, told]

end Growth

namespace Recounts

variable {M : TransitionSystem σ ι τ} {A : List ι} {o : Order} {evs : List (Event ι τ)}
  {w : View σ ι τ}

theorem begin : Recounts M A [] (View.begin M) where
  nodup := .nil
  reachable := by simp [View.begin]
  roots := by simp [View.begin]
  labels := .nil
  met := by simp [View.begin]
  underway := by simp [View.begin]
  told := by simp [View.begin]
  untold := by simp [chapter]
  balance := by simp [View.begin]

theorem root_met (k : Recounts M A evs w) {r : RecordIndex}
    (hr : r ∈ evs.filterMap Event.root?) : ∃ t, w.states[r]? = some t := by
  have mem : w.states[r]? ∈ M.initial.map some := by
    rw [← k.roots]
    exact List.mem_append_left _ (List.mem_map_of_mem hr)
  obtain ⟨t, -, ht⟩ := List.mem_map.1 mem
  exact ⟨t, ht.symm⟩

theorem bounded (k : Recounts M A evs w) {v : Visit σ ι τ RecordIndex} (hv : v ∈ w.pending) :
    v.label < w.states.length :=
  (List.getElem?_eq_some_iff.1 (k.met v hv)).1

/-- No two pending visits are of one record. -/
theorem apart (k : Recounts M A evs w) {v : Visit σ ι τ RecordIndex}
    {rest : List (Visit σ ι τ RecordIndex)} (h : w.pending.Perm (v :: rest)) :
    ∀ a ∈ rest, a.label ≠ v.label := by
  intro a ha he
  have distinct := (h.map Visit.label).nodup_iff.1 k.labels
  rw [List.map_cons, ← he] at distinct
  exact distinct.notMem (List.mem_map_of_mem ha)

/-- Only black records are told to their ends, so other colors may change. -/
theorem recolor (k : Recounts M A evs w) {color : RecordIndex → Color}
    (black : ∀ r, w.color r = .black → color r = .black) :
    Recounts M A evs { w with color } where
  nodup := k.nodup
  reachable := k.reachable
  roots := k.roots
  labels := k.labels
  met := k.met
  underway := k.underway
  told r t hr hl := (k.told r t hr hl).imp_right (black r)
  untold := k.untold
  balance := k.balance

theorem paint (k : Recounts M A evs w) (r : RecordIndex) (c : Color) :
    Recounts M A evs (w.paint r c) := by
  apply k.recolor
  intro q hq
  rw [hq, Color.black_advance, ite_self]

theorem note (k : Recounts M A evs w) (o : Order) (r : RecordIndex) :
    Recounts M A evs (w.note o r) := by
  rw [View.note]
  split
  · exact k.paint r .gray
  · exact k

theorem initial (k : Recounts M A evs w) {t : σ} {rest : List σ} {r : RecordIndex}
    (unread : w.unread = t :: rest) (met : w.states[r]? = some t) :
    Recounts M A (evs ++ [.initial r]) { w with unread := rest } where
  nodup := k.nodup
  reachable := k.reachable
  roots := by
    rw [← k.roots, unread]
    simp [Event.root?, met]
  labels := k.labels
  met := k.met
  underway v hv := (k.underway v hv).snoc (by simp [Event.explored?])
  told q u hq hl := (k.told q u hq hl).imp_left fun h => h.snoc (by simp [Event.explored?])
  untold q hq := by
    rw [chapter_snoc_of_ne (by simp [Event.explored?])]
    exact k.untold q hq
  balance := by
    have balance := k.balance
    rw [unread, List.length_cons] at balance
    rw [List.length_append, List.length_singleton]
    dsimp only
    omega

/-- A state met for the first time owes its whole chapter. -/
theorem enter (k : Recounts M A evs w) {t : σ} (new : t ∉ w.states) (reachable : M.Reachable A t)
    (o : Order) : Recounts M A evs (w.enter A o t) where
  nodup := by
    apply List.nodup_append.2
    refine ⟨k.nodup, List.nodup_singleton t, ?_⟩
    rintro a ha b hb rfl
    rw [List.mem_singleton.1 hb] at ha
    exact new ha
  reachable u hu := by
    rcases List.mem_append.1 hu with hu | hu
    · exact k.reachable u hu
    · rw [List.mem_singleton.1 hu]
      exact reachable
  roots := by
    rw [← k.roots]
    congr 1
    apply List.map_congr_left
    intro r hr
    obtain ⟨u, hu⟩ := k.root_met hr
    exact (View.getElem?_snoc_of_some hu t).trans hu.symm
  labels := by
    apply ((Order.place_perm o _ w.pending).map Visit.label).nodup_iff.2
    apply List.nodup_cons.2
    refine ⟨?_, k.labels⟩
    intro h
    obtain ⟨v, hv, hl⟩ := List.mem_map.1 h
    exact Nat.ne_of_lt (k.bounded hv) hl
  met v hv := by
    rcases Order.mem_place.1 hv with rfl | hv
    · exact List.getElem?_concat_length
    · exact View.getElem?_snoc_of_some (k.met v hv) t
  underway v hv := by
    rcases Order.mem_place.1 hv with rfl | hv
    · exact .planned rfl (k.untold _ (Nat.le_refl _)) rfl
    · exact (k.underway v hv).grow t
  told r u hr hl := by
    have labels := (Order.place_perm o (.planned A w.states.length t) w.pending).map Visit.label
    obtain ⟨hn, hl⟩ := not_or.1 fun h => hl (labels.mem_iff.2 (List.mem_cons.2 h))
    have old : w.states[r]? = some u :=
      ((View.getElem?_snoc w.states t r).trans (if_neg hn)).symm.trans hr
    exact (k.told r u old hl).imp_left fun h => h.grow t
  untold r hr := by
    apply k.untold r
    rw [View.length_enter] at hr
    exact Nat.le_of_succ_le hr
  balance := by
    have balance := k.balance
    have place := Order.place_perm o (.planned A w.states.length t) w.pending
    have weight := (place.map (eventsDue M)).sum_nat
    have new : eventsDue M (.planned A w.states.length t : Visit σ ι τ RecordIndex) =
        chapterLength M A t := rfl
    rw [List.map_cons, List.sum_cons, new] at weight
    simp only [View.enter, List.map_append, List.sum_append, List.map_singleton,
      List.sum_singleton]
    omega

/-- A pending visit that is replaced by what an event of its record leaves of it. -/
theorem turn (k : Recounts M A evs w) {v v' : Visit σ ι τ RecordIndex}
    {rest vs : List (Visit σ ι τ RecordIndex)} {e : Event ι τ} (old : w.pending.Perm (v :: rest))
    (new : vs.Perm (v' :: rest)) (label : v'.label = v.label) (state : v'.state = v.state)
    (explored : e.explored? = some v.label) (root : e.root? = none)
    (underway : Underway M A w.states (evs ++ [e]) v')
    (less : eventsDue M v = eventsDue M v' + 1) :
    Recounts M A (evs ++ [e]) (w.withPending vs) where
  nodup := k.nodup
  reachable := k.reachable
  roots := by
    rw [← k.roots]
    simp [root, View.withPending]
  labels := by
    apply (new.map Visit.label).nodup_iff.2
    rw [List.map_cons, label]
    exact (old.map Visit.label).nodup_iff.1 k.labels
  met a ha := by
    rcases List.mem_cons.1 (new.mem_iff.1 ha) with rfl | ha
    · rw [label, state]
      exact k.met v (old.mem_iff.2 List.mem_cons_self)
    · exact k.met a (old.mem_iff.2 (List.mem_cons_of_mem v ha))
  underway a ha := by
    rcases List.mem_cons.1 (new.mem_iff.1 ha) with rfl | ha
    · exact underway
    · refine (k.underway a (old.mem_iff.2 (List.mem_cons_of_mem v ha))).snoc ?_
      rw [explored]
      exact fun h => k.apart old a ha (Option.some.inj h).symm
  told r t hr hl := by
    have labels : (vs.map Visit.label).Perm (w.pending.map Visit.label) := by
      refine (new.map Visit.label).trans (.trans ?_ (old.map Visit.label).symm)
      rw [List.map_cons, label]
      rfl
    have hl : r ∉ w.pending.map Visit.label := fun h => hl (labels.mem_iff.2 h)
    refine (k.told r t hr hl).imp_left fun h => h.snoc ?_
    rw [explored]
    rintro ⟨⟩
    exact hl (List.mem_map_of_mem (old.mem_iff.2 List.mem_cons_self))
  untold r hr := by
    have lt := k.bounded (old.mem_iff.2 List.mem_cons_self)
    rw [chapter_snoc_of_ne]
    · exact k.untold r hr
    · rw [explored]
      rintro ⟨⟩
      exact Nat.not_lt_of_le hr lt
  balance := by
    have balance := k.balance
    have before := (old.map (eventsDue M)).sum_nat
    have after := (new.map (eventsDue M)).sum_nat
    rw [List.map_cons, List.sum_cons] at before after
    simp only [View.withPending, List.length_append, List.length_singleton]
    omega

/-- A visit that ends is told to its end. -/
theorem finish (k : Recounts M A evs w) {v v' : Visit σ ι τ RecordIndex}
    {rest : List (Visit σ ι τ RecordIndex)} (head : w.pending = v :: rest)
    (begun : v.started = true) (step : v.next M = (none, v')) (black : w.color v.label = .black)
    (b : Option (Backtrack ι τ)) :
    Recounts M A (evs ++ [.finish v.label b]) (w.withPending rest) where
  nodup := k.nodup
  reachable := k.reachable
  roots := by
    rw [← k.roots]
    simp [Event.root?, View.withPending]
  labels := by
    have labels := k.labels
    rw [head] at labels
    exact labels.of_cons
  met a ha := k.met a (head ▸ List.mem_cons_of_mem v ha)
  underway a ha := by
    refine (k.underway a (head ▸ List.mem_cons_of_mem v ha)).snoc fun h => ?_
    exact k.apart (.of_eq head) a ha (Option.some.inj h).symm
  told r t hr hl := by
    have hv := head ▸ List.mem_cons_self
    by_cases he : r = v.label
    · subst he
      have ht : v.state = t := Option.some.inj ((k.met v hv).symm.trans hr)
      exact ⟨ht ▸ (k.underway v hv).finish begun step b, black⟩
    · refine (k.told r t hr ?_).imp_left fun h => h.snoc fun h => he (Option.some.inj h).symm
      rw [head, List.map_cons, List.mem_cons, not_or]
      exact ⟨he, hl⟩
  untold r hr := by
    have lt : v.label < w.states.length := k.bounded (head ▸ List.mem_cons_self)
    rw [chapter_snoc_of_ne]
    · exact k.untold r hr
    · rintro ⟨⟩
      exact Nat.not_lt_of_le hr lt
  balance := by
    have balance := k.balance
    have last : eventsDue M v = 1 := by
      rw [eventsDue, Visit.pending_of_none step, begun]
      rfl
    rw [head, List.map_cons, List.sum_cons, last] at balance
    rw [List.length_append, List.length_singleton]
    dsimp only [View.withPending]
    omega

theorem mem_initial (k : Recounts M A evs w) {t : σ} (ht : t ∈ w.unread) : t ∈ M.initial := by
  have mem : some t ∈ M.initial.map some := by
    rw [← k.roots]
    exact List.mem_append_right _ (List.mem_map_of_mem ht)
  simpa using mem

theorem reachable_successor (k : Recounts M A evs w) {v v' : Visit σ ι τ RecordIndex} {i : ι}
    {x : τ} (hv : v ∈ w.pending) (step : v.next M = (some (i, x), v')) :
    M.Reachable A (M.successor x) := by
  have hx : (i, x) ∈ v.pending M := by
    rw [(Visit.next_of_some step).1]
    exact List.mem_cons_self
  obtain ⟨hi, hx⟩ := TransitionSystem.mem_outgoing.1 ((k.underway v hv).mem_outgoing hx)
  exact (k.reachable v.state (List.mem_of_getElem? (k.met v hv))).successor hi hx

/-- Every event carries the recount on. -/
theorem advances (k : Recounts M A evs w) {e : Event ι τ} {w' : View σ ι τ}
    (adv : w.Advances M A o e w') : Recounts M A (evs ++ [e]) w' := by
  cases adv with
  | known idle unread met => exact k.initial unread met
  | @root t rest idle unread new =>
    have reachable : M.Reachable A t :=
      TransitionSystem.reachable_of_mem_initial (k.mem_initial (unread ▸ List.mem_cons_self))
    exact (k.enter new reachable o).initial unread List.getElem?_concat_length
  | @start v rest ready head fresh =>
    have hv : v ∈ w.pending := head ▸ List.mem_cons_self
    have less : eventsDue M v = eventsDue M v.start + 1 := by
      simp [eventsDue, fresh, Visit.start, Visit.pending]
    have turned : Recounts M A (evs ++ [.start v.label]) (w.withPending (v.start :: rest)) :=
      k.turn (.of_eq head) (.refl _) rfl rfl rfl rfl ((k.underway v hv).start fresh) less
    exact turned.paint v.label .gray
  | @tree v v' rest i x ready head begun step new =>
    have hv : v ∈ w.pending := head ▸ List.mem_cons_self
    obtain ⟨-, label, state, -⟩ := Visit.next_of_some step
    have swap (a : Visit σ ι τ RecordIndex) :
        (o.place (.planned A w.states.length (M.successor x)) (a :: rest)).Perm
          (a :: .planned A w.states.length (M.successor x) :: rest) :=
      (Order.place_perm o _ _).trans (.swap _ _ _)
    -- The record is entered first, so that the edge finds its target among the states.
    have entered := k.enter new (k.reachable_successor hv step) o
    refine entered.turn (?_ : (w.enter A o _).pending.Perm _) (swap v') label state rfl rfl ?_
      (eventsDue_of_next step)
    · rw [View.enter, head]
      exact swap v
    · exact ((k.underway v hv).grow _).edge begun step List.getElem?_concat_length
  | @edge v v' rest i x r ready head begun step met =>
    have hv : v ∈ w.pending := head ▸ List.mem_cons_self
    obtain ⟨-, label, state, -⟩ := Visit.next_of_some step
    refine note (k.turn (.of_eq head) (.refl _) label state rfl rfl ?_ (eventsDue_of_next step)) o r
    exact (k.underway v hv).edge begun step met
  | @finish v v' rest ready head begun step =>
    have black : (w.paint v.label .black).color v.label = .black := by
      simp only [View.paint, if_true]
      cases w.color v.label <;> rfl
    exact (k.paint v.label .black).finish head begun step black _

/-- When nothing is left, all that is reachable was met. -/
theorem met_of_reachable (k : Recounts M A evs w) (unread : w.unread = [])
    (pending : w.pending = []) {t : σ} (ht : M.Reachable A t) : t ∈ w.states := by
  obtain ⟨s, hs, word, path⟩ := ht
  induction path with
  | nil =>
    have roots := k.roots
    rw [unread, List.map_nil, List.append_nil] at roots
    have mem : some s ∈ (evs.filterMap Event.root?).map (w.states[·]?) := by
      rw [roots]
      exact List.mem_map_of_mem hs
    obtain ⟨r, -, hr⟩ := List.mem_map.1 mem
    exact List.mem_of_getElem? hr
  | @snoc word t i x path hi hx ih =>
    obtain ⟨r, hr⟩ := List.mem_iff_getElem?.1 ih
    obtain ⟨⟨es, b, -, follows⟩, -⟩ := k.told r t hr (by simp [pending])
    exact follows.met (TransitionSystem.mem_outgoing.2 ⟨hi, hx⟩)

end Recounts

end Exploration.Search
