import Exploration.Proofs.Search.Chapter

/-!
# Runs of a search

A search that is asked for nothing but the next event runs through its view: `View.Runs` says
which events can have been reported when a view is reached. A history in which no skip hit
anything is such a run as far as its events go. In a run the edges reported from a record follow
the outgoing transitions of its state, each to the record of a successor.
-/

namespace Exploration.Search

variable {σ ι τ : Type}

def Report.event? : Report ι τ → Option (Event ι τ)
  | .event e => some e
  | .ended => none
  | .skippedLetter _ => none
  | .skippedState _ => none
  | .refused => none
  | .modified => none

/-- A skip that hit a record. -/
def Report.IsSkip : Report ι τ → Prop
  | .skippedLetter _ => True
  | .skippedState _ => True
  | .event _ => False
  | .ended => False
  | .refused => False
  | .modified => False

/-- The events of a history. -/
def events (h : List (Report ι τ)) : List (Event ι τ) := h.filterMap Report.event?

theorem events_snoc (h : List (Report ι τ)) (x : Report ι τ) :
    events (h ++ [x]) = events h ++ x.event?.toList := by
  cases x <;> simp [events, Report.event?]

@[simp] theorem events_map_event (evs : List (Event ι τ)) : events (evs.map .event) = evs := by
  induction evs with
  | nil => rfl
  | cons e evs ih => simpa [events, Report.event?] using ih

/-- The end of a search is no event. -/
theorem events_ended (evs : List (Event ι τ)) (n : Nat) :
    events (evs.map .event ++ .replicate n .ended) = evs := by
  have silent : events (.replicate n (.ended : Report ι τ)) = [] :=
    List.filterMap_replicate_of_none rfl
  have both := events_map_event evs
  rw [events] at silent both ⊢
  rw [List.filterMap_append, both, silent, List.append_nil]

theorem mem_events {h : List (Report ι τ)} {e : Event ι τ} : e ∈ events h ↔ .event e ∈ h := by
  rw [events, List.mem_filterMap]
  constructor
  · rintro ⟨y, hy, he⟩
    cases y <;> simp_all [Report.event?]
  · intro he
    exact ⟨.event e, he, rfl⟩

/-- The number of initial states reported. -/
def rootCount (evs : List (Event ι τ)) : Nat := (evs.filterMap Event.root?).length

theorem rootCount_snoc_initial (evs : List (Event ι τ)) (r : RecordIndex) :
    rootCount (evs ++ [.initial r]) = rootCount evs + 1 := by
  simp [rootCount, Event.root?]

theorem rootCount_snoc_of_none {e : Event ι τ} (h : e.root? = none) (evs : List (Event ι τ)) :
    rootCount (evs ++ [e]) = rootCount evs := by
  simp [rootCount, h]

/-- The record an edge leaves. -/
def Event.source? : Event ι τ → Option RecordIndex
  | .edge _ u _ _ _ => some u
  | .initial _ => none
  | .start _ => none
  | .finish _ _ => none

def edgesFrom (u : RecordIndex) (evs : List (Event ι τ)) : List (Event ι τ) :=
  evs.filter fun e => e.source? = some u

theorem edgesFrom_snoc_of_eq {e : Event ι τ} {u : RecordIndex} (h : e.source? = some u)
    (evs : List (Event ι τ)) : edgesFrom u (evs ++ [e]) = edgesFrom u evs ++ [e] := by
  simp [edgesFrom, h]

theorem edgesFrom_snoc_of_ne {e : Event ι τ} {u : RecordIndex} (h : e.source? ≠ some u)
    (evs : List (Event ι τ)) : edgesFrom u (evs ++ [e]) = edgesFrom u evs := by
  simp [edgesFrom, h]

theorem edge_mem_edgesFrom {evs : List (Event ι τ)} {k : EdgeKind} {u v : RecordIndex} {i : ι}
    {x : τ} : .edge k u i x v ∈ edgesFrom u evs ↔ .edge k u i x v ∈ evs := by
  simp [edgesFrom, Event.source?]

theorem edgesFrom_append (u : RecordIndex) (evs more : List (Event ι τ)) :
    edgesFrom u (evs ++ more) = edgesFrom u evs ++ edgesFrom u more :=
  List.filter_append evs more

theorem edgesFrom_start (u r : RecordIndex) (evs : List (Event ι τ)) :
    edgesFrom u (.start r :: evs) = edgesFrom u evs := by
  simp [edgesFrom, Event.source?]

theorem edgesFrom_finish (u r : RecordIndex) (b : Option (Backtrack ι τ)) :
    edgesFrom u [.finish r b] = [] := by
  simp [edgesFrom, Event.source?]

/-- The edges from a record are told in its chapter. -/
theorem edgesFrom_chapter (u : RecordIndex) (evs : List (Event ι τ)) :
    edgesFrom u (chapter u evs) = edgesFrom u evs := by
  rw [edgesFrom, chapter, List.filter_filter]
  apply List.filter_congr
  intro e _
  cases e <;> simp [Event.source?, Event.explored?]

/-- Two lists of which one follows the other, place by place. -/
theorem Follows.getElem {M : TransitionSystem σ ι τ} {states : List σ} {r : RecordIndex}
    {es : List (Event ι τ)} {ps : List (ι × τ)} (h : Follows M states r es ps) {c : Nat}
    {e : Event ι τ} (he : es[c]? = some e) : ∃ p k v, ps[c]? = some p ∧
      e = .edge k r p.1 p.2 v ∧ states[v]? = some (M.successor p.2) := by
  obtain ⟨hc, rfl⟩ := List.getElem?_eq_some_iff.1 he
  have lt : c < ps.length := h.length_eq ▸ hc
  obtain ⟨k, v, hk, hv⟩ := (List.forall₂_iff_get.1 h).2 c hc lt
  exact ⟨ps[c], k, v, List.getElem?_eq_getElem lt, hk, hv⟩

theorem Follows.edgesFrom_eq {M : TransitionSystem σ ι τ} {states : List σ} {r : RecordIndex}
    {es : List (Event ι τ)} {ps : List (ι × τ)} (h : Follows M states r es ps) :
    edgesFrom r es = es := by
  apply List.filter_eq_self.2
  intro e he
  obtain ⟨c, hc⟩ := List.mem_iff_getElem?.1 he
  obtain ⟨p, k, v, -, rfl, -⟩ := h.getElem hc
  simp [Event.source?]

namespace View

variable {M : TransitionSystem σ ι τ} {A : List ι} {o : Order} {h : List (Report ι τ)}
  {evs : List (Event ι τ)} {w : View σ ι τ}

/-- The events `evs` lead to the view `w`. -/
inductive Runs (M : TransitionSystem σ ι τ) (A : List ι) (o : Order) :
    List (Event ι τ) → View σ ι τ → Prop
  | begin : Runs M A o [] (begin M)
  | event {evs : List (Event ι τ)} {w w' : View σ ι τ} {e : Event ι τ} (before : Runs M A o evs w)
      (last : w.Advances M A o e w') : Runs M A o (evs ++ [e]) w'

theorem Runs.reached (run : Runs M A o evs w) : Reached M A o (evs.map .event) w := by
  induction run with
  | begin => exact .begin
  | event before last ih =>
    rw [List.map_append]
    exact ih.move (.event last)

theorem Runs.recounts (run : Runs M A o evs w) : Recounts M A evs w := by
  induction run with
  | begin => exact .begin
  | event before last ih => exact ih.advances last

/-- A record is started when its visit stands at the head and was not started before. -/
theorem Advances.start_cases {w' : View σ ι τ} {r : RecordIndex}
    (adv : w.Advances M A o (.start r) w') :
    ∃ a rest, w.pending = a :: rest ∧ a.started = false ∧ a.label = r := by
  cases adv with
  | start ready head fresh => exact ⟨_, _, head, fresh, rfl⟩

/-- A run as it was when it came to one of its events. -/
theorem Runs.split (run : Runs M A o evs w) {e : Event ι τ} (he : e ∈ evs) :
    ∃ before after w₁ w₂, evs = before ++ e :: after ∧ Runs M A o before w₁ ∧
      w₁.Advances M A o e w₂ := by
  induction run with
  | begin => cases he
  | @event evs w w' e' before last ih =>
    rcases List.mem_append.1 he with he | he
    · obtain ⟨first, rest, w₁, w₂, rfl, run, adv⟩ := ih he
      exact ⟨first, rest ++ [e'], w₁, w₂, by simp, run, adv⟩
    · obtain rfl := List.mem_singleton.1 he
      exact ⟨evs, [], w, w', rfl, before, last⟩

/-- What is not an event leaves the view alone, unless it is a skip that hit. -/
theorem Reached.runs (reached : Reached M A o h w) (plain : ∀ x ∈ h, ¬ x.IsSkip) :
    Runs M A o (events h) w := by
  induction reached with
  | begin => exact .begin
  | @move h w w' x before last ih =>
    have run := ih fun y hy => plain y (List.mem_append_left _ hy)
    have hx : ¬ x.IsSkip := plain x (by simp)
    rw [events_snoc]
    cases last with
    | event advance => exact run.event advance
    | ended unread pending => simpa [Report.event?] using run
    | skippedLetter head => exact absurd trivial hx
    | skippedState head => exact absurd trivial hx
    | refused pending => simpa [Report.event?] using run
    | modified => simpa [Report.event?] using run

end View

namespace Recounts

variable {M : TransitionSystem σ ι τ} {A : List ι} {evs : List (Event ι τ)} {w : View σ ι τ}

/-- Nothing is told of a record without its start. -/
theorem start_mem (k : Recounts M A evs w) {e : Event ι τ} {r : RecordIndex} (he : e ∈ evs)
    (hr : e.explored? = some r) : .start r ∈ evs := by
  have mem : e ∈ chapter r evs := by simp [chapter, he, hr]
  suffices start : .start r ∈ chapter r evs from (List.mem_filter.1 start).1
  by_cases met : r < w.states.length
  · by_cases hl : r ∈ w.pending.map Visit.label
    · obtain ⟨a, ha, rfl⟩ := List.mem_map.1 hl
      cases k.underway a ha with
      | planned fresh untold whole => simp [untold] at mem
      | begun begun told follows rest => simp [told]
    · obtain ⟨⟨es, b, told, follows⟩, black⟩ := k.told r _ (List.getElem?_eq_getElem met) hl
      simp [told]
  · simp [k.untold r (Nat.le_of_not_lt met)] at mem

/-- The edges from a pending visit follow the transitions it has taken. -/
theorem follows_pending (k : Recounts M A evs w) {v : Visit σ ι τ RecordIndex}
    (hv : v ∈ w.pending) : ∃ ps, Follows M w.states v.label (edgesFrom v.label evs) ps ∧
      M.outgoing A v.state = ps ++ v.pending M := by
  rw [← edgesFrom_chapter]
  cases k.underway v hv with
  | planned fresh untold whole =>
    refine ⟨[], ?_, by simp [whole]⟩
    rw [untold]
    exact .nil
  | @begun es ps begun told follows rest =>
    refine ⟨ps, ?_, rest⟩
    rw [told, edgesFrom_start, follows.edgesFrom_eq]
    exact follows

/-- The edges from a record that is not pending follow all transitions of its state. -/
theorem follows_told (k : Recounts M A evs w) {r : RecordIndex} {t : σ}
    (hr : w.states[r]? = some t) (hl : r ∉ w.pending.map Visit.label) :
    Follows M w.states r (edgesFrom r evs) (M.outgoing A t) := by
  obtain ⟨⟨es, b, told, follows⟩, -⟩ := k.told r t hr hl
  rw [← edgesFrom_chapter, told, edgesFrom_append, edgesFrom_start, edgesFrom_finish,
    follows.edgesFrom_eq, List.append_nil]
  exact follows

/-- The edges reported from a record follow transitions of its state. -/
theorem follows (k : Recounts M A evs w) {r : RecordIndex} {t : σ}
    (hr : w.states[r]? = some t) :
    ∃ ps rest, Follows M w.states r (edgesFrom r evs) ps ∧ M.outgoing A t = ps ++ rest := by
  by_cases hl : r ∈ w.pending.map Visit.label
  · obtain ⟨v, hv, rfl⟩ := List.mem_map.1 hl
    have ht : v.state = t := Option.some.inj ((k.met v hv).symm.trans hr)
    obtain ⟨ps, hf, ho⟩ := k.follows_pending hv
    exact ⟨ps, v.pending M, hf, ht ▸ ho⟩
  · exact ⟨M.outgoing A t, [], k.follows_told hr hl, by simp⟩

/-- Every edge reported is a transition between the states of its records. -/
theorem edge_sound (k : Recounts M A evs w) {kind : EdgeKind} {u v : RecordIndex} {i : ι} {x : τ}
    (he : .edge kind u i x v ∈ evs) : ∃ t, w.states[u]? = some t ∧
      (i, x) ∈ M.outgoing A t ∧ w.states[v]? = some (M.successor x) := by
  have mem : .edge kind u i x v ∈ edgesFrom u evs := edge_mem_edgesFrom.2 he
  cases hu : w.states[u]? with
  | none =>
    have untold := k.untold u (List.getElem?_eq_none_iff.1 hu)
    rw [← edgesFrom_chapter, untold] at mem
    cases mem
  | some t =>
    obtain ⟨ps, rest, hf, ho⟩ := k.follows hu
    obtain ⟨c, hc⟩ := List.mem_iff_getElem?.1 mem
    obtain ⟨p, kind', v', hp, he, hv⟩ := hf.getElem hc
    obtain ⟨-, -, rfl, rfl, rfl⟩ := Event.edge.inj he
    refine ⟨t, rfl, ?_, hv⟩
    rw [ho]
    exact List.mem_append_left _ (List.mem_of_getElem? hp)

theorem met_of_initial (k : Recounts M A evs w) (unread : w.unread = []) {t : σ}
    (ht : t ∈ M.initial) : t ∈ w.states := by
  have mem : some t ∈ (evs.filterMap Event.root?).map (w.states[·]?) := by
    have roots := k.roots
    rw [unread, List.map_nil, List.append_nil] at roots
    rw [roots]
    exact List.mem_map_of_mem ht
  obtain ⟨r, -, hr⟩ := List.mem_map.1 mem
  exact List.mem_of_getElem? hr

/-- The initial states reported are met. -/
theorem root_of_lt (k : Recounts M A evs w) {c : Nat} {t : σ} (reported : c < rootCount evs)
    (ht : M.initial[c]? = some t) :
    ∃ r, (evs.filterMap Event.root?)[c]? = some r ∧ w.states[r]? = some t := by
  have hr := List.getElem?_eq_getElem (l := evs.filterMap Event.root?) reported
  refine ⟨_, hr, ?_⟩
  have short : c < ((evs.filterMap Event.root?).map (w.states[·]?)).length := by
    rw [List.length_map]
    exact reported
  have place := congrArg (·[c]?) k.roots
  rw [List.getElem?_append_left short, List.getElem?_map, List.getElem?_map, hr, ht] at place
  exact Option.some.inj place

theorem rootCount_add_unread (k : Recounts M A evs w) :
    rootCount evs + w.unread.length = M.initial.length := by
  simpa [rootCount] using congrArg List.length k.roots

/-- A state has one record. -/
theorem record_unique (k : Recounts M A evs w) {r q : RecordIndex} {t : σ}
    (hr : w.states[r]? = some t) (hq : w.states[q]? = some t) : r = q :=
  (List.getElem?_inj (List.getElem?_eq_some_iff.1 hr).1 k.nodup).1 (hr.trans hq.symm)

/-- The initial state reported next stands in the place that those so far lead up to. -/
theorem initial_of_unread (k : Recounts M A evs w) {t : σ} {rest : List σ}
    (unread : w.unread = t :: rest) :
    M.initial[rootCount evs]? = some t := by
  have place : (M.initial.map some)[rootCount evs]? = some (some t) := by
    rw [← k.roots, unread]
    simp [rootCount]
  simpa using place

/-- The transition a visit takes next stands in the place that its edges so far lead up to. -/
theorem outgoing_of_step (k : Recounts M A evs w) {v v' : Visit σ ι τ RecordIndex} {p : ι × τ}
    (hv : v ∈ w.pending) (step : v.next M = (some p, v')) :
    (M.outgoing A v.state)[(edgesFrom v.label evs).length]? = some p := by
  obtain ⟨ps, hf, ho⟩ := k.follows_pending hv
  rw [ho, hf.length_eq, (Visit.next_of_some step).1]
  simp

end Recounts

variable {δ : Type} [DecidableEq σ] [Hashable σ] [Inhabited δ] {M : TransitionSystem σ ι τ}
  {A : List ι} {o : Order}

/-- A call that is no skip is not reported as one. -/
theorem not_isSkip_of_play (s : Search M A o δ) {ms : List (Move δ)}
    (plain : ∀ m ∈ ms, m ≠ .skipLetter ∧ m ≠ .skipState) : ∀ x ∈ (s.play ms).1, ¬ x.IsSkip := by
  induction ms generalizing s with
  | nil => simp [play]
  | cons m ms ih =>
    intro x hx
    rw [play] at hx
    rcases List.mem_cons.1 hx with rfl | hx
    · cases m with
      | next =>
        rw [perform]
        split <;> exact id
      | skipLetter => exact absurd rfl (plain .skipLetter List.mem_cons_self).1
      | skipState => exact absurd rfl (plain .skipState List.mem_cons_self).2
      | modifyData r change => exact id
    · exact ih _ (fun m hm => plain m (List.mem_cons_of_mem _ hm)) x hx

theorem runs_of_play {ms : List (Move δ)} {h : List (Report ι τ)} {s : Search M A o δ}
    (hp : (begin M A o δ).play ms = (h, s))
    (plain : ∀ m ∈ ms, m ≠ .skipLetter ∧ m ≠ .skipState) :
    View.Runs M A o (events h) s.view := by
  apply (reached_of_play hp).2.runs
  intro x hx
  apply not_isSkip_of_play (begin M A o δ) plain x
  rw [hp]
  exact hx

end Exploration.Search
