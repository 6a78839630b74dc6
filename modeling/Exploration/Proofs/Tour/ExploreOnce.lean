import Mathlib.Data.ENat.Lattice
import Mathlib.Data.Set.Card
import Exploration.System.Path
import Exploration.Proofs.Tour.Termination

/-!
# Exploring every state once

A guide explores every state once if it chooses exactly the states it was not shown before. The
states chosen in its tour are then different and reachable, and when nothing is pending and none of
them was dropped, they are all that are reachable: what is chosen is started, and what is started
has its successors shown. `Charted` keeps the account of this on the way.
-/

namespace Exploration

variable {σ ι τ δ ν : Type}

/-- The answer of a guide that is shown `s` at the memory `m`: the state is chosen if it was not
met, and has been met from now on. -/
structure Guide.Answers (met : ν → σ → Prop) (m : ν) (s : σ) (answer : Decision δ × ν) : Prop where
  old : met m s → answer.1 = .ignore
  new : ¬ met m s → ∃ data, answer.1 = .explore data
  remembered : ∀ t, met answer.2 t ↔ met m t ∨ t = s

/-- The guide explores every state once, if `met` says which states its memory has met. -/
structure Guide.ExploresOnce (g : Guide σ ι τ δ ν) (met : ν → σ → Prop) : Prop where
  initial (m : ν) (s : σ) : Answers met m s (g.onInitial m s)
  accepts (m : ν) (s : σ) (data : δ) : (g.onStart m s data).1 = true
  keeps (m : ν) (s : σ) (data : δ) (t : σ) : met (g.onStart m s data).2 t ↔ met m t
  transition (m : ν) (s : σ) (data : δ) (i : ι) (x : τ) (t : σ) :
    Answers met m t (g.onTransition m s data i x t)

namespace Guide

variable {g : Guide σ ι τ δ ν} {met : ν → σ → Prop} {m m' : ν} {s : σ} {d : Decision δ}

theorem Answers.cases (h : Answers met m s (d, m')) :
    (met m s ∧ d = .ignore) ∨ (¬ met m s ∧ ∃ data, d = .explore data) := by
  by_cases known : met m s
  · exact .inl ⟨known, h.old known⟩
  · exact .inr ⟨known, h.new known⟩

theorem Answers.ne_stop (h : Answers met m s (d, m')) : d ≠ .stop := by
  rcases h.cases with ⟨-, rfl⟩ | ⟨-, data, rfl⟩ <;> simp

/-- Passing over a state means that it was met. -/
theorem Answers.ignore_of_none (h : Answers met m s (d, m')) (none : d.data? = none) :
    met m s ∧ d = .ignore := by
  rcases h.cases with old | ⟨-, data, rfl⟩
  · exact old
  · cases none

theorem Answers.not_met (h : Answers met m s (.explore data, m')) : ¬ met m s := by
  rcases h.cases with ⟨-, ignored⟩ | ⟨new, -⟩
  · cases ignored
  · exact new

theorem ExploresOnce.initial_eq (once : g.ExploresOnce met) (answer : g.onInitial m s = (d, m')) :
    Answers met m s (d, m') :=
  answer ▸ once.initial m s

theorem ExploresOnce.start_eq (once : g.ExploresOnce met) {data : δ} {b : Bool}
    (answer : g.onStart m s data = (b, m')) : b = true ∧ ∀ t, met m' t ↔ met m t := by
  have accepted := once.accepts m s data
  have kept := once.keeps m s data
  rw [answer] at accepted kept
  exact ⟨accepted, kept⟩

theorem ExploresOnce.transition_eq (once : g.ExploresOnce met) {r : σ} {data : δ} {i : ι} {x : τ}
    (answer : g.onTransition m r data i x s = (d, m')) : Answers met m s (d, m') :=
  answer ▸ once.transition m r data i x s

/-- The log of the calls makes no difference. -/
theorem ExploresOnce.logged (once : g.ExploresOnce met) :
    g.logged.ExploresOnce fun m => met m.1 where
  initial m s := ⟨(once.initial m.1 s).old, (once.initial m.1 s).new,
    (once.initial m.1 s).remembered⟩
  accepts m := once.accepts m.1
  keeps m := once.keeps m.1
  transition m s data i x t := ⟨(once.transition m.1 s data i x t).old,
    (once.transition m.1 s data i x t).new, (once.transition m.1 s data i x t).remembered⟩

/-- A guide that keeps a list of the states it was shown. -/
def collector [DecidableEq σ] : Guide σ ι τ Unit (List σ) where
  onInitial m s := if s ∈ m then (.ignore, m) else (.explore (), s :: m)
  onTransition m _ _ _ _ t := if t ∈ m then (.ignore, m) else (.explore (), t :: m)

theorem exploresOnce_collector [DecidableEq σ] :
    (collector : Guide σ ι τ Unit (List σ)).ExploresOnce fun m s => s ∈ m := by
  have answers (m : List σ) (s : σ) : Answers (fun m s => s ∈ m) m s
      (if s ∈ m then (.ignore, m) else ((.explore () : Decision Unit), s :: m)) := by
    by_cases old : s ∈ m
    · rw [if_pos old]
      refine ⟨fun _ => rfl, fun new => absurd old new, fun t => ?_⟩
      refine (or_iff_left_of_imp ?_).symm
      rintro rfl
      exact old
    · rw [if_neg old]
      exact ⟨fun known => absurd known old, fun _ => ⟨(), rfl⟩, fun t => by simp [or_comm]⟩
  exact ⟨answers, fun _ _ _ => rfl, fun _ _ _ _ => .rfl, fun m _ _ _ _ t => answers m t⟩

end Guide

namespace Tour

variable {M : TransitionSystem σ ι τ} {A : List ι} {o : Order}

/-- The states the guide chose to explore, honoured or not. -/
def chosen (ts : List (Turn σ ι τ δ)) : List σ := (choices ts).map (·.1.1)

theorem chosen_snoc (ts : List (Turn σ ι τ δ)) (t : Turn σ ι τ δ) :
    chosen (ts ++ [t]) = chosen ts ++ (t.call.chosen?.map (·.1)).toList := by
  rw [chosen, choices_snoc, List.map_append, Turn.choice?]
  cases t.call.chosen? <;> rfl

/-- After the calls `ts` with the visits `vs` pending: the states met are those chosen, each once,
and every transition taken so far leads to one of them. The initial states `unasked` are still to
be asked about. -/
structure Charted (M : TransitionSystem σ ι τ) (A : List ι) (met : σ → Prop)
    (ts : List (Turn σ ι τ δ)) (vs : List (Visit σ ι τ δ)) (unasked : List σ) : Prop where
  met_iff : ∀ s, met s ↔ s ∈ chosen ts
  nodup : (chosen ts).Nodup
  reachable : ∀ s ∈ chosen ts, M.Reachable A s
  initial : ∀ s ∈ M.initial, s ∈ chosen ts ∨ s ∈ unasked
  origin : ∀ v ∈ vs, M.Reachable A v.state ∧ ∀ q ∈ v.pending M, q ∈ M.outgoing A v.state
  taken : ∀ v ∈ vs, ∀ q ∈ M.outgoing A v.state, q ∈ v.pending M ∨ M.successor q.2 ∈ chosen ts
  explored : ∀ a ∈ begun ts, (∃ v ∈ vs, v.state = a.1) ∨
    ∀ q ∈ M.outgoing A a.1, M.successor q.2 ∈ chosen ts
  unstopped : ∀ t ∈ ts, ¬ t.call.Stops

namespace Charted

variable {met : σ → Prop} {ts : List (Turn σ ι τ δ)} {t : Turn σ ι τ δ}
  {v u : Visit σ ι τ δ} {vs rest : List (Visit σ ι τ δ)} {unasked : List σ} {s : σ}

theorem start (fresh : ∀ s, ¬ met s) :
    Charted M A met ([] : List (Turn σ ι τ δ)) [] M.initial where
  met_iff s := iff_of_false (fresh s) List.not_mem_nil
  nodup := .nil
  reachable := by simp [chosen, choices]
  initial _ h := .inr h
  origin := by simp
  taken := by simp
  explored := by simp [begun]
  unstopped := by simp

/-- A state is shown and chosen if it is new. -/
theorem shown {met : ν → σ → Prop} {m m' : ν} {d : Decision δ}
    (k : Charted M A (met m) ts vs unasked) (answer : Guide.Answers met m s (d, m'))
    (reachable : M.Reachable A s) (chooses : t.call.chosen? = d.data?.map (s, ·))
    (decides : t.call.decision? = some d) (silent : t.call.begun? = none) :
    Charted M A (met m') (ts ++ [t]) vs unasked ∧ s ∈ chosen (ts ++ [t]) := by
  have told : chosen (ts ++ [t]) = chosen ts ∧ s ∈ chosen ts ∨
      chosen (ts ++ [t]) = chosen ts ++ [s] ∧ s ∉ chosen ts := by
    rw [chosen_snoc, chooses, ← k.met_iff]
    rcases answer.cases with ⟨known, rfl⟩ | ⟨new, data, rfl⟩
    · exact .inl ⟨List.append_nil _, known⟩
    · exact .inr ⟨rfl, new⟩
  have mem (r : σ) : r ∈ chosen (ts ++ [t]) ↔ r ∈ chosen ts ∨ r = s := by
    rcases told with ⟨same, known⟩ | ⟨grown, -⟩
    · rw [same]
      refine ⟨.inl, ?_⟩
      rintro (old | rfl)
      · exact old
      · exact known
    · rw [grown, List.mem_append, List.mem_singleton]
  have begun_eq : begun (ts ++ [t]) = begun ts := by simp [begun_snoc, silent]
  refine ⟨?_, (mem s).2 (.inr rfl)⟩
  constructor
  case met_iff =>
    intro r
    rw [answer.remembered, k.met_iff, mem]
  case nodup =>
    rcases told with ⟨same, -⟩ | ⟨grown, new⟩
    · rw [same]
      exact k.nodup
    · rw [grown]
      exact List.nodup_append.2 ⟨k.nodup, List.nodup_singleton s,
        fun a ha b hb => by rw [List.mem_singleton.1 hb]; exact fun he => new (he ▸ ha)⟩
  case reachable =>
    intro r hr
    rcases (mem r).1 hr with old | rfl
    · exact k.reachable r old
    · exact reachable
  case initial => exact fun r hr => (k.initial r hr).imp_left fun old => (mem r).2 (.inl old)
  case origin => exact k.origin
  case taken =>
    exact fun v hv q hq => (k.taken v hv q hq).imp_right fun old => (mem _).2 (.inl old)
  case explored =>
    intro a ha
    rw [begun_eq] at ha
    exact (k.explored a ha).imp_right fun all q hq => (mem _).2 (.inl (all q hq))
  case unstopped =>
    intro c hc
    rcases List.mem_append.1 hc with hc | hc
    · exact k.unstopped c hc
    · rw [List.mem_singleton.1 hc, Call.Stops, decides]
      exact fun stop => answer.ne_stop (Option.some.inj stop)

/-- The next initial state is no longer to be asked about once it was shown. -/
theorem asked (k : Charted M A met ts vs (s :: unasked)) (known : s ∈ chosen ts) :
    Charted M A met ts vs unasked where
  __ := k
  initial r hr := by
    rcases k.initial r hr with old | left
    · exact .inl old
    · rcases List.mem_cons.1 left with rfl | left
      · exact .inl known
      · exact .inr left

/-- A state that was chosen is planned for, wherever its visit is put. -/
theorem enroll (k : Charted M A met ts vs unasked) {vs' : List (Visit σ ι τ δ)} {data : δ}
    (placed : vs'.Perm (.planned A data s :: vs)) (known : s ∈ chosen ts) :
    Charted M A met ts vs' unasked where
  __ := k
  origin v hv := by
    rcases List.mem_cons.1 (placed.mem_iff.1 hv) with rfl | hv
    · exact ⟨k.reachable s known, fun q hq => hq⟩
    · exact k.origin v hv
  taken v hv q hq := by
    rcases List.mem_cons.1 (placed.mem_iff.1 hv) with rfl | hv
    · exact .inl hq
    · exact k.taken v hv q hq
  explored a ha := by
    refine (k.explored a ha).imp_left ?_
    rintro ⟨v, hv, state⟩
    exact ⟨v, placed.mem_iff.2 (List.mem_cons_of_mem _ hv), state⟩

/-- The visit at the head goes on over a transition to a state that was chosen. -/
theorem turn (k : Charted M A met ts (v :: rest) unasked) {p : ι × τ}
    (next : v.next M = (some p, u)) (known : M.successor p.2 ∈ chosen ts) :
    Charted M A met ts (u :: rest) unasked where
  __ := k
  origin := by
    obtain ⟨pending, -, state, -, -⟩ := Visit.next_of_some next
    refine List.forall_mem_cons.2 ⟨?_, fun w hw => k.origin w (List.mem_cons_of_mem v hw)⟩
    obtain ⟨reachable, sound⟩ := k.origin v List.mem_cons_self
    rw [state]
    exact ⟨reachable, fun q hq => sound q (pending ▸ List.mem_cons_of_mem p hq)⟩
  taken := by
    obtain ⟨pending, -, state, -, -⟩ := Visit.next_of_some next
    refine List.forall_mem_cons.2 ⟨?_, fun w hw => k.taken w (List.mem_cons_of_mem v hw)⟩
    intro q hq
    rw [state] at hq
    rcases k.taken v List.mem_cons_self q hq with left | old
    · rw [pending] at left
      rcases List.mem_cons.1 left with rfl | left
      · exact .inr known
      · exact .inl left
    · exact .inr old
  explored a ha := by
    refine (k.explored a ha).imp_left ?_
    rintro ⟨w, hw, same⟩
    rcases List.mem_cons.1 hw with rfl | hw
    · exact ⟨u, List.mem_cons_self, (Visit.next_of_some next).2.2.1.trans same⟩
    · exact ⟨w, List.mem_cons_of_mem u hw, same⟩

/-- The visit at the head has no transition left. -/
theorem leave (k : Charted M A met ts (v :: rest) unasked) (next : v.next M = (none, u)) :
    Charted M A met ts rest unasked where
  __ := k
  origin w hw := k.origin w (List.mem_cons_of_mem v hw)
  taken w hw := k.taken w (List.mem_cons_of_mem v hw)
  explored a ha := by
    rcases k.explored a ha with ⟨w, hw, same⟩ | all
    · rcases List.mem_cons.1 hw with rfl | hw
      · right
        intro q hq
        have left := k.taken w List.mem_cons_self q (same ▸ hq)
        rw [Visit.pending_of_none next] at left
        exact left.resolve_left List.not_mem_nil
      · exact .inl ⟨w, hw, same⟩
    · exact .inr all

/-- The visit at the head is started. -/
theorem begin {met : ν → σ → Prop} {m m' : ν} (k : Charted M A (met m) ts (v :: rest) unasked)
    (same : ∀ s, met m' s ↔ met m s) (started : t.call.begun? = some (v.state, v.label))
    (chooses : t.call.chosen? = none) (decides : t.call.decision? = none) :
    Charted M A (met m') (ts ++ [t]) (v.start :: rest) unasked := by
  have chosen_eq : chosen (ts ++ [t]) = chosen ts := by simp [chosen_snoc, chooses]
  constructor
  case met_iff =>
    intro s
    rw [same, k.met_iff, chosen_eq]
  case nodup => exact chosen_eq ▸ k.nodup
  case reachable => exact chosen_eq ▸ k.reachable
  case initial => exact chosen_eq ▸ k.initial
  case origin =>
    exact List.forall_mem_cons.2
      ⟨k.origin v List.mem_cons_self, fun w hw => k.origin w (List.mem_cons_of_mem v hw)⟩
  case taken =>
    rw [chosen_eq]
    exact List.forall_mem_cons.2
      ⟨k.taken v List.mem_cons_self, fun w hw => k.taken w (List.mem_cons_of_mem v hw)⟩
  case explored =>
    intro a ha
    rw [begun_snoc, started] at ha
    rw [chosen_eq]
    rcases List.mem_append.1 ha with ha | ha
    · refine (k.explored a ha).imp_left ?_
      rintro ⟨w, hw, state⟩
      rcases List.mem_cons.1 hw with rfl | hw
      · exact ⟨w.start, List.mem_cons_self, state⟩
      · exact ⟨w, List.mem_cons_of_mem _ hw, state⟩
    · rw [List.mem_singleton.1 ha]
      exact .inl ⟨v.start, List.mem_cons_self, rfl⟩
  case unstopped =>
    intro c hc
    rcases List.mem_append.1 hc with hc | hc
    · exact k.unstopped c hc
    · rw [List.mem_singleton.1 hc, Call.Stops, decides]
      simp

/-- When nothing is pending and all that was chosen was begun, all that is reachable was chosen. -/
theorem mem_of_reachable (k : Charted M A met ts [] [])
    (all : ∀ s ∈ chosen ts, s ∈ (Tour.begun ts).map (·.1)) (reachable : M.Reachable A s) :
    s ∈ chosen ts := by
  obtain ⟨r, hr, w, path⟩ := reachable
  induction path with
  | nil => exact (k.initial r hr).resolve_right List.not_mem_nil
  | @snoc w t i x _ hi hx ih =>
    obtain ⟨a, ha, rfl⟩ := List.mem_map.1 (all t ih)
    rcases k.explored a ha with ⟨v, hv, -⟩ | onward
    · cases hv
    · exact onward (i, x) (TransitionSystem.mem_outgoing.2 ⟨hi, hx⟩)

end Charted

/-- The account at a status of the tour; one that has ended has asked about everything. -/
def Status.Charted (met : ν → σ → Prop) (ts : List (Turn σ ι τ δ)) (unasked : List σ) :
    Status M A o δ ν → Prop
  | .going t m => Tour.Charted M A (met m) ts t.frontier.toList unasked
  | .done r => Tour.Charted M A (met r.memory) ts [] []

section Calls

variable {g : Guide σ ι τ δ ν} {met : ν → σ → Prop} {limit : Option Nat}
  {ts : List (Turn σ ι τ δ)} {p : Progress ν} {f : Frontier (Visit σ ι τ δ)}
  {st : Status M A o δ ν}

theorem Greets.charted {s : σ} {d : Decision δ} {unasked : List σ} (once : g.ExploresOnce met)
    (h : Greets g limit p f s d st) (initial : s ∈ M.initial)
    (k : Charted M A (met p.memory) ts f.toList (s :: unasked)) (b : Bool) :
    st.Charted met (ts ++ [⟨.initial s d, b⟩]) unasked := by
  have shown {m : ν} (answer : g.onInitial p.memory s = (d, m)) :
      Charted M A (met m) (ts ++ [⟨.initial s d, b⟩]) f.toList unasked ∧
        s ∈ chosen (ts ++ [⟨.initial s d, b⟩]) := by
    obtain ⟨kept, known⟩ := k.shown (t := ⟨.initial s d, b⟩) (once.initial_eq answer)
      (TransitionSystem.reachable_of_mem_initial initial) rfl rfl rfl
    exact ⟨kept.asked known, known⟩
  cases h with
  | @honour data m answer =>
    obtain ⟨kept, known⟩ := shown answer
    have placed : (f.pushBack (.planned A data s)).toList.Perm (.planned A data s :: f.toList) := by
      rw [Frontier.toList_pushBack]
      exact List.perm_append_singleton _ _
    exact kept.enroll placed known
  | drop answer => exact (shown answer).1
  | pass answer => exact (shown answer).1
  | stop answer => exact absurd rfl (once.initial_eq answer).ne_stop

theorem Turns.charted {call : Option (Call σ ι τ δ)} (once : g.ExploresOnce met)
    (h : Turns g limit p f call st) (k : Charted M A (met p.memory) ts f.toList []) (b : Bool) :
    st.Charted met (ts ++ call.toList.map (⟨·, b⟩)) [] := by
  have head {v : Visit σ ι τ δ} {rest : Frontier (Visit σ ι τ δ)} (pop : f.pop? = some (v, rest)) :
      Charted M A (met p.memory) ts (v :: rest.toList) [] :=
    Frontier.toList_of_pop?_eq_some pop ▸ k
  -- The state a transition leads to is shown, and the visit has taken the transition.
  have led {v u : Visit σ ι τ δ} {rest : Frontier (Visit σ ι τ δ)} {i : ι} {x : τ} {d : Decision δ}
      {m : ν} (pop : f.pop? = some (v, rest)) (next : v.next M = (some (i, x), u))
      (answer : g.onTransition p.memory v.state v.label i x (M.successor x) = (d, m)) :
      let c : Call σ ι τ δ := .transition v.state v.label i x (M.successor x) d
      Charted M A (met m) (ts ++ [⟨c, b⟩]) (u :: rest.toList) [] ∧
        M.successor x ∈ chosen (ts ++ [⟨c, b⟩]) := by
    intro c
    obtain ⟨reachable, sound⟩ := (head pop).origin v List.mem_cons_self
    have outgoing : (i, x) ∈ M.outgoing A v.state := by
      apply sound
      rw [(Visit.next_of_some next).1]
      exact List.mem_cons_self
    obtain ⟨hi, hx⟩ := TransitionSystem.mem_outgoing.1 outgoing
    obtain ⟨kept, known⟩ := (head pop).shown (t := ⟨c, b⟩) (once.transition_eq answer)
      (reachable.successor hi hx) rfl rfl rfl
    exact ⟨kept.turn next known, known⟩
  cases h with
  | finish pop =>
    rw [Option.toList_none, List.map_nil, List.append_nil]
    rw [Frontier.pop?_eq_none_iff.1 pop] at k
    exact k
  | leave pop begun next =>
    rw [Option.toList_none, List.map_nil, List.append_nil]
    exact (head pop).leave next
  | accept pop fresh answer => exact (head pop).begin (once.start_eq answer).2 rfl rfl rfl
  | decline pop fresh answer => cases (once.start_eq answer).1
  | @honour v u rest i x data m pop begun next answer free =>
    obtain ⟨kept, known⟩ := led pop next answer
    have placed : ((rest.pushFront u).push o (.planned A data (M.successor x))).toList.Perm
        (.planned A data (M.successor x) :: u :: rest.toList) := by
      rw [Frontier.toList_push]
      exact Order.place_perm o _ _
    exact kept.enroll placed known
  | drop pop begun next answer => exact (led pop next answer).1
  | pass pop begun next answer none =>
    obtain ⟨-, rfl⟩ := (once.transition_eq answer).ignore_of_none none
    exact (led pop next answer).1
  | stop pop begun next answer => exact absurd rfl (once.transition_eq answer).ne_stop

theorem charted_history (once : g.ExploresOnce met) {m : ν} (fresh : ∀ s, ¬ met m s)
    (M : TransitionSystem σ ι τ) (A : List ι) (o : Order) (limit : Option Nat) (n : Nat) :
    (Tour.after g n (welcome g M.initial (⟨.empty, limit, true⟩ : Tour M A o δ) m)).Charted met
      (history g M A o limit m n) [] := by
  refine invariant_history (fun ts unasked st => st.Charted met ts unasked) ?_ ?_ ?_ ?_ n
  · intro limit p f ts s rest d st h initial k
    exact h.charted once (initial s List.mem_cons_self) k _
  · exact fun _ _ _ k => k
  · exact fun limit p f ts call st h k => h.charted once k _
  · exact .start fresh

end Calls

section Counting

theorem length_le_encard {L : List σ} {R : Set σ} (nodup : L.Nodup) (sub : ∀ s ∈ L, s ∈ R) :
    (L.length : ℕ∞) ≤ R.encard := by
  classical
  have le := Set.encard_le_encard (s := (L.toFinset : Set σ)) (t := R)
    fun s hs => sub s (by simpa using hs)
  rwa [Set.encard_coe_eq_coe_finsetCard, List.toFinset_card_of_nodup nodup] at le

theorem length_eq_encard {L : List σ} {R : Set σ} (nodup : L.Nodup) (same : ∀ s, s ∈ L ↔ s ∈ R) :
    (L.length : ℕ∞) = R.encard := by
  classical
  have all : (L.toFinset : Set σ) = R := by
    ext s
    simpa using same s
  rw [← all, Set.encard_coe_eq_coe_finsetCard, List.toFinset_card_of_nodup nodup]

theorem honoured_sublist_chosen (ts : List (Turn σ ι τ δ)) :
    ((honoured ts).map (·.1)).Sublist (chosen ts) := by
  rw [honoured, chosen, List.map_map]
  exact List.filter_sublist.map _

theorem Accounted.chosen_eq {limit : Option Nat} {ts : List (Turn σ ι τ δ)} {p : Progress ν}
    {vs : List (Visit σ ι τ δ)} {early late : List (σ × δ)}
    (k : Accounted o limit ts p vs early late) :
    chosen ts = early.map (·.1) ++ late.map (·.1) := by
  simp [chosen, k.choices, Function.comp_def]

section Ended

variable {met : σ → Prop} {limit : Option Nat} {ts : List (Turn σ ι τ δ)} {p : Progress ν}
  {early late : List (σ × δ)}

theorem Accounted.begun_perm (k : Accounted o limit ts p [] early late) :
    ((begun ts).map (·.1)).Perm (early.map (·.1)) := by
  have all : (begun ts).Perm early := by simpa [unstarted] using k.balance
  exact all.map _

theorem Accounted.length_begun (k : Accounted o limit ts p [] early late) :
    ((begun ts).map (·.1)).length = p.honoured := by
  rw [k.begun_perm.length_eq, List.length_map, k.count]

/-- The states begun are some of those chosen. -/
theorem Charted.begun_sound (c : Charted M A met ts [] [])
    (k : Accounted o limit ts p [] early late) :
    ((begun ts).map (·.1)).Nodup ∧ ∀ s ∈ (begun ts).map (·.1), M.Reachable A s := by
  have distinct := c.nodup
  have sound := c.reachable
  rw [k.chosen_eq] at distinct sound
  refine ⟨k.begun_perm.nodup_iff.2 distinct.of_append_left, fun s hs => ?_⟩
  exact sound s (List.mem_append_left _ (k.begun_perm.mem_iff.1 hs))

/-- If no choice was dropped, all that are reachable were begun. -/
theorem Charted.mem_begun_iff (c : Charted M A met ts [] [])
    (k : Accounted o limit ts p [] early []) (s : σ) :
    s ∈ (begun ts).map (·.1) ↔ M.Reachable A s := by
  refine ⟨(c.begun_sound k).2 s, fun hs => ?_⟩
  have chosen_eq : chosen ts = early.map (·.1) := by
    rw [k.chosen_eq, List.map_nil, List.append_nil]
  have mem := c.mem_of_reachable (fun t ht => k.begun_perm.mem_iff.2 (chosen_eq ▸ ht)) hs
  rw [chosen_eq] at mem
  exact k.begun_perm.mem_iff.2 mem

/-- If a choice was dropped, more states are reachable than were begun. -/
theorem Charted.length_begun_lt (c : Charted M A met ts [] [])
    (k : Accounted o limit ts p [] early late) (dropped : late ≠ []) :
    (((begun ts).map (·.1)).length : ℕ∞) < {t | M.Reachable A t}.encard := by
  have all := length_le_encard (R := {t | M.Reachable A t}) c.nodup c.reachable
  rw [k.chosen_eq, List.length_append, List.length_map, List.length_map, ← k.count,
    ← k.length_begun] at all
  have more : ((begun ts).map (·.1)).length < ((begun ts).map (·.1)).length + late.length :=
    Nat.lt_add_of_pos_right (List.length_pos_iff.2 dropped)
  exact lt_of_lt_of_le (Nat.cast_lt.2 more) all

end Ended

variable {g : Guide σ ι τ δ ν} {met : ν → σ → Prop} {limit : Option Nat} {m : ν}
  {ts : List (Turn σ ι τ δ)} {unasked : List σ} {st : Status M A o δ ν}

theorem Status.Charted.length_chosen_le (k : st.Charted met ts unasked) :
    ((chosen ts).length : ℕ∞) ≤ {t | M.Reachable A t}.encard := by
  cases st with
  | going t m => exact length_le_encard k.nodup k.reachable
  | done r => exact length_le_encard k.nodup k.reachable

/-- A tour that explores every state once ends, if there is a limit or only finitely many states
are reachable. -/
theorem explore_ends_of_once (once : g.ExploresOnce met) (fresh : ∀ s, ¬ met m s)
    (bounded : limit ≠ none ∨ {t | M.Reachable A t}.Finite) :
    ∃ n r, explore g M A o limit m n = some r := by
  cases limit with
  | some k => exact explore_ends_of_honoured_le (honoured_le_limit g M A o k m)
  | none =>
    have finite : {t | M.Reachable A t}.Finite := bounded.resolve_left (absurd rfl)
    have few (n : Nat) :
        (honoured (history g M A o none m n)).length ≤ {t | M.Reachable A t}.ncard := by
      have some_chosen := (honoured_sublist_chosen (history g M A o none m n)).length_le
      have chosen_few := (charted_history once fresh M A o none n).length_chosen_le
      rw [← finite.cast_ncard_eq, Nat.cast_le] at chosen_few
      rw [List.length_map] at some_chosen
      exact some_chosen.trans chosen_few
    exact explore_ends_of_honoured_le few

/-- Where a tour that explores every state once ended, with the account of its choices. -/
theorem accounted_of_once (once : g.ExploresOnce met) (fresh : ∀ s, ¬ met m s) {n : Nat}
    {r : Outcome ν} (ended : explore g M A o limit m n = some r) :
    ∃ p early late, p.outcome = r ∧
      Charted M A (met r.memory) (history g M A o limit m n) [] [] ∧
      Accounted o limit (history g M A o limit m n) p [] early late := by
  have stopped := explore_eq_some_iff.1 ended
  have balanced := balanced_history g M A o limit m n
  have charted := charted_history once fresh M A o limit n
  rw [stage] at stopped
  generalize Tour.after g n _ = st at stopped balanced charted
  cases balanced with
  | going k => cases stopped
  | @done p vs early late k idle =>
    obtain rfl : p.outcome = r := Stage.ended.inj stopped
    have empty : vs = [] := by
      refine idle.resolve_right ?_
      rintro ⟨t, ht, stops⟩
      exact charted.unstopped t ht stops
    exact ⟨p, early, late, rfl, charted, empty ▸ k⟩

/-- The states begun when a tour that explores every state once has ended: they are all that are
reachable, or as many as the limit allows. -/
theorem begun_of_once (once : g.ExploresOnce met) (fresh : ∀ s, ¬ met m s) {n : Nat}
    {r : Outcome ν} (ended : explore g M A o limit m n = some r) :
    let L := (begun (history g M A o limit m n)).map (·.1)
    let R := {t | M.Reachable A t}
    L.Nodup ∧ (∀ s ∈ L, M.Reachable A s) ∧
      (L.length : ℕ∞) = limit.elim R.encard (fun k => min k R.encard) ∧
      (limit = none → ∀ s, s ∈ L ↔ M.Reachable A s) ∧
      (r.complete = true ↔ ∀ k ∈ limit, R.encard ≤ k) := by
  intro L R
  obtain ⟨p, early, late, rfl, charted, k⟩ := accounted_of_once once fresh ended
  obtain ⟨nodup, reachable⟩ := charted.begun_sound k
  have length : L.length = p.honoured := k.length_begun
  refine ⟨nodup, reachable, ?_⟩
  cases late with
  | nil =>
    have whole := charted.mem_begun_iff k
    have count : (L.length : ℕ∞) = R.encard := length_eq_encard nodup whole
    have room : ∀ k ∈ limit, R.encard ≤ k := by
      intro n hn
      rw [← count, length, Nat.cast_le]
      exact k.within n hn
    refine ⟨?_, fun _ => whole, iff_of_true (k.complete.2 rfl) room⟩
    rw [count]
    cases limit with
    | none => rfl
    | some n => exact (min_eq_right (room n rfl)).symm
  | cons a late =>
    have less : (L.length : ℕ∞) < R.encard := charted.length_begun_lt k (List.cons_ne_nil a late)
    have reached : limit = some L.length := by
      rw [length]
      exact k.full.resolve_left (List.cons_ne_nil a late)
    rw [reached]
    refine ⟨(min_eq_left less.le).symm, by simp, iff_of_false ?_ ?_⟩
    · exact fun complete => List.cons_ne_nil a late (k.complete.1 complete)
    · exact fun room => absurd (room L.length rfl) (not_le_of_gt less)

end Counting

end Tour

end Exploration
