import Exploration.Proofs.Tour.Company

/-!
# A tour that explores every state once

Under any limit such a tour starts as many states as it may, of those that are reachable, and tells
by its flag whether they are all. They are the first that a search of the same order starts,
always breadth-first, and depth-first if there is one initial state.
-/

namespace Exploration.Tour

open Search (started)

variable {σ ι τ δ ν : Type} {M : TransitionSystem σ ι τ} {A : List ι} {o : Order}

theorem unstarted_eq_nil {vs : List (Visit σ ι τ δ)} (begun : ∀ v ∈ vs, v.started = true) :
    unstarted vs = [] := by
  rw [unstarted, List.map_eq_nil_iff, List.filter_eq_nil_iff]
  intro v hv
  simp [begun v hv]

theorem started_of_unstarted_nil {v : Visit σ ι τ δ} {rest : List (Visit σ ι τ δ)}
    (idle : unstarted (v :: rest) = []) : v.started = true ∧ unstarted rest = [] := by
  cases begun : v.started with
  | false =>
    rw [unstarted_cons_of_fresh begun] at idle
    cases idle
  | true =>
    rw [unstarted_cons_of_started begun] at idle
    exact ⟨rfl, idle⟩

/-- The search goes beside the tour, or depth-first the tour dropped a state and will start no
more. -/
inductive Accompanied (M : TransitionSystem σ ι τ) (A : List ι) (o : Order) (met : σ → Prop)
    (complete : Bool) (ts : List (Turn σ ι τ δ)) (vs : List (Visit σ ι τ δ)) (unasked : List σ) :
    Prop
  | beside {behind : List (Visit σ ι τ Unit)} {evs : List (Search.Event ι τ)}
      {w : Search.View σ ι τ} (company : Company M A o met ts vs behind unasked evs w)
      (alone : o = .depthFirst ∨ complete = true → behind = []) :
      Accompanied M A o met complete ts vs unasked
  | astray {evs : List (Search.Event ι τ)} {w : Search.View σ ι τ} (deep : o = .depthFirst)
      (dropped : complete = false) (tells : Tells M A o ts evs w) (idle : unstarted vs = []) :
      Accompanied M A o met complete ts vs unasked

namespace Accompanied

variable {met met' : σ → Prop} {complete : Bool} {ts : List (Turn σ ι τ δ)} {t : Turn σ ι τ δ}
  {v u : Visit σ ι τ δ} {vs rest : List (Visit σ ι τ δ)} {unasked : List σ} {s : σ} {i : ι} {x : τ}

theorem tells (k : Accompanied M A o met complete ts vs unasked) :
    ∃ evs w, Tells M A o ts evs w := by
  cases k with
  | beside company => exact ⟨_, _, company.toTells⟩
  | astray deep dropped tells => exact ⟨_, _, tells⟩

theorem greet_known (k : Accompanied M A o met complete ts vs (s :: unasked)) (known : met s)
    (same : ∀ r, met' r ↔ met r ∨ r = s) (silent : t.call.begun? = none) :
    Accompanied M A o met' complete (ts ++ [t]) vs unasked := by
  cases k with
  | beside company alone =>
    obtain ⟨evs, w, company⟩ := company.greet_known known same silent
    exact .beside company alone
  | astray deep dropped tells idle => exact .astray deep dropped (tells.call silent) idle

theorem greet_honour (k : Accompanied M A o met true ts vs (s :: unasked)) (new : ¬ met s)
    (grown : ∀ r, met' r ↔ met r ∨ r = s) (silent : t.call.begun? = none)
    (one : o = .depthFirst → ∀ r ∈ unasked, r = s) (data : δ) :
    Accompanied M A o met' true (ts ++ [t]) (vs ++ [.planned A data s]) unasked := by
  cases k with
  | @beside behind evs w company alone =>
    obtain rfl := alone (.inr rfl)
    have placed : (vs ++ [Visit.planned A data s]).map Visit.bare ++ [] =
        vs.map Visit.bare ++ [] ++ [Visit.planned A () s] := by
      simp [Visit.bare, Visit.planned]
    obtain ⟨evs, w, company⟩ := company.greet_new new grown silent one placed
    exact .beside company fun _ => rfl
  | astray deep dropped => cases dropped

theorem greet_drop (k : Accompanied M A o met complete ts vs (s :: unasked)) (new : ¬ met s)
    (grown : ∀ r, met' r ↔ met r ∨ r = s) (silent : t.call.begun? = none) :
    Accompanied M A o met' false (ts ++ [t]) vs unasked := by
  cases k with
  | @beside behind evs w company alone =>
    cases o with
    | breadthFirst =>
      obtain ⟨evs, w, company⟩ := company.greet_new new grown silent (by simp)
        (List.append_assoc _ _ _).symm
      exact .beside company (by simp)
    | depthFirst =>
      -- Nothing was pending when the search came to read a new initial state.
      have clear := (company.opening_of_new new).2.resolve_left (by decide)
      have pending := company.pending
      rw [clear] at pending
      obtain ⟨none, -⟩ := List.append_eq_nil_iff.1 pending.symm
      obtain rfl := List.map_eq_nil_iff.1 none
      exact .astray rfl rfl (company.toTells.call silent) rfl
  | astray deep dropped tells idle => exact .astray deep rfl (tells.call silent) idle

theorem leave (k : Accompanied M A o met complete ts (v :: rest) []) (begun : v.started = true)
    (next : v.next M = (none, u)) : Accompanied M A o met complete ts rest [] := by
  cases k with
  | beside company alone =>
    obtain ⟨evs, w, company⟩ := company.leave begun next
    exact .beside company alone
  | astray deep dropped tells idle =>
    exact .astray deep dropped tells (started_of_unstarted_nil idle).2

theorem accept (k : Accompanied M A o met complete ts (v :: rest) []) (fresh : v.started = false)
    (same : ∀ s, met' s ↔ met s) (begins : t.call.begun? = some (v.state, v.label)) :
    Accompanied M A o met' complete (ts ++ [t]) (v.start :: rest) [] := by
  cases k with
  | beside company alone =>
    obtain ⟨evs, w, company⟩ := company.accept fresh same begins
    exact .beside company alone
  | astray deep dropped tells idle =>
    rw [(started_of_unstarted_nil idle).1] at fresh
    cases fresh

/-- Astray only the head of the frontier changes, and it stays started. -/
theorem astray_turn {evs : List (Search.Event ι τ)} {w : Search.View σ ι τ} (deep : o = .depthFirst)
    (tells : Tells M A o ts evs w) (idle : unstarted (v :: rest) = []) {p : ι × τ}
    (next : v.next M = (some p, u)) (silent : t.call.begun? = none) (dropped : complete = false) :
    Accompanied M A o met' complete (ts ++ [t]) (u :: rest) [] := by
  obtain ⟨begun, idle⟩ := started_of_unstarted_nil idle
  refine .astray deep dropped (tells.call silent) ?_
  rw [unstarted_cons_of_started ((Visit.next_of_some next).2.2.2.1.trans begun), idle]

theorem pass (k : Accompanied M A o met complete ts (v :: rest) []) (begun : v.started = true)
    (next : v.next M = (some (i, x), u)) (known : met (M.successor x))
    (same : ∀ s, met' s ↔ met s ∨ s = M.successor x) (silent : t.call.begun? = none) :
    Accompanied M A o met' complete (ts ++ [t]) (u :: rest) [] := by
  cases k with
  | beside company alone =>
    obtain ⟨evs, w, company⟩ := company.pass begun next known same silent
    exact .beside company alone
  | astray deep dropped tells idle => exact astray_turn deep tells idle next silent dropped

theorem honour (k : Accompanied M A o met true ts (v :: rest) []) (begun : v.started = true)
    (next : v.next M = (some (i, x), u)) (new : ¬ met (M.successor x))
    (grown : ∀ s, met' s ↔ met s ∨ s = M.successor x) (silent : t.call.begun? = none) (data : δ) :
    Accompanied M A o met' true (ts ++ [t])
      (o.place (.planned A data (M.successor x)) (u :: rest)) [] := by
  cases k with
  | @beside behind evs w company alone =>
    obtain rfl := alone (.inr rfl)
    have placed : (o.place (.planned A data (M.successor x)) (u :: rest)).map Visit.bare ++ [] =
        o.place (.planned A () (M.successor x)) (u.bare :: (rest.map Visit.bare ++ [])) := by
      rw [Visit.map_bare_place, List.append_nil, List.append_nil]
      rfl
    obtain ⟨evs, w, company⟩ := company.discover begun next new grown silent placed
    exact .beside company fun _ => rfl
  | astray deep dropped => cases dropped

theorem drop (k : Accompanied M A o met complete ts (v :: rest) []) (begun : v.started = true)
    (next : v.next M = (some (i, x), u)) (new : ¬ met (M.successor x))
    (grown : ∀ s, met' s ↔ met s ∨ s = M.successor x) (silent : t.call.begun? = none) :
    Accompanied M A o met' false (ts ++ [t]) (u :: rest) [] := by
  cases k with
  | @beside behind evs w company alone =>
    cases o with
    | breadthFirst =>
      have placed : (u :: rest).map Visit.bare ++ (behind ++ [Visit.planned A () (M.successor x)]) =
          u.bare :: (rest.map Visit.bare ++ behind) ++ [Visit.planned A () (M.successor x)] := by
        rw [List.map_cons, ← List.append_assoc]
        rfl
      obtain ⟨evs, w, company⟩ := company.discover begun next new grown silent placed
      exact .beside company (by simp)
    | depthFirst =>
      obtain rfl := alone (.inl rfl)
      have all := unstarted_eq_nil (company.begun_of_deep begun)
      exact astray_turn rfl company.toTells all next silent rfl
  | astray deep dropped tells idle => exact astray_turn deep tells idle next silent rfl

end Accompanied

/-- The search beside a status of the tour. A tour that dropped a state has no budget left. -/
def Status.Accompanied (met : ν → σ → Prop) (ts : List (Turn σ ι τ δ)) (unasked : List σ) :
    Status M A o δ ν → Prop
  | .going t m => (t.complete = true ∨ t.budget = some 0) ∧
      Tour.Accompanied M A o (met m) t.complete ts t.frontier.toList unasked
  | .done _ => ∃ evs w, Tells M A o ts evs w

section Calls

variable {g : Guide σ ι τ δ ν} {met : ν → σ → Prop} {limit : Option Nat}
  {ts : List (Turn σ ι τ δ)} {p : Progress ν} {f : Frontier (Visit σ ι τ δ)}
  {st : Status M A o δ ν} {unasked : List σ}

theorem spent_of_full (full : ¬ p.honours limit = true) : limit.map (· - p.honoured) = some 0 :=
  Decidable.not_not.1 fun room => full (Progress.honours_iff.2 room)

/-- A choice is honoured only while none was dropped. -/
theorem Status.Accompanied.undropped
    (k : (p.going limit f : Status M A o δ ν).Accompanied met ts unasked)
    (free : p.honours limit = true) :
    p.complete = true ∧ Tour.Accompanied M A o (met p.memory) true ts f.toList unasked := by
  have complete : p.complete = true := k.1.resolve_right (Progress.honours_iff.1 free)
  have company : Tour.Accompanied M A o (met p.memory) p.complete ts f.toList unasked := k.2
  rw [complete] at company
  exact ⟨complete, company⟩

theorem Greets.accompanied {s : σ} {d : Decision δ} (once : g.ExploresOnce met)
    (h : Greets g limit p f s d st) (one : o = .depthFirst → ∀ r ∈ unasked, r = s)
    (k : (p.going limit f : Status M A o δ ν).Accompanied met ts (s :: unasked)) (b : Bool) :
    st.Accompanied met (ts ++ [⟨.initial s d, b⟩]) unasked := by
  cases h with
  | @honour data m answer free =>
    obtain ⟨complete, company⟩ := k.undropped free
    have answers := once.initial_eq answer
    have after := company.greet_honour (t := ⟨.initial s (.explore data), b⟩) answers.not_met
      answers.remembered rfl one data
    rw [← Frontier.toList_pushBack, ← complete] at after
    exact ⟨.inl complete, after⟩
  | drop answer full =>
    have answers := once.initial_eq answer
    exact ⟨.inr (spent_of_full full), k.2.greet_drop answers.not_met answers.remembered rfl⟩
  | pass answer none =>
    have answers := once.initial_eq answer
    exact ⟨k.1, k.2.greet_known (answers.ignore_of_none none).1 answers.remembered rfl⟩
  | stop answer => exact absurd rfl (once.initial_eq answer).ne_stop

theorem Turns.accompanied {call : Option (Call σ ι τ δ)} (once : g.ExploresOnce met)
    (h : Turns g limit p f call st)
    (k : (p.going limit f : Status M A o δ ν).Accompanied met ts []) (b : Bool) :
    st.Accompanied met (ts ++ call.toList.map (⟨·, b⟩)) [] := by
  have head {v : Visit σ ι τ δ} {rest : Frontier (Visit σ ι τ δ)} (pop : f.pop? = some (v, rest)) :
      Tour.Accompanied M A o (met p.memory) p.complete ts (v :: rest.toList) [] :=
    Frontier.toList_of_pop?_eq_some pop ▸ k.2
  cases h with
  | finish pop =>
    rw [Option.toList_none, List.map_nil, List.append_nil]
    exact k.2.tells
  | leave pop begun next =>
    rw [Option.toList_none, List.map_nil, List.append_nil]
    exact ⟨k.1, (head pop).leave begun next⟩
  | accept pop fresh answer =>
    exact ⟨k.1, (head pop).accept fresh (once.start_eq answer).2 rfl⟩
  | decline pop fresh answer => cases (once.start_eq answer).1
  | @honour v u rest i x data m pop begun next answer free =>
    obtain ⟨complete, company⟩ := k.undropped free
    have answers := once.transition_eq answer
    rw [Frontier.toList_of_pop?_eq_some pop] at company
    have after := company.honour
      (t := ⟨.transition v.state v.label i x (M.successor x) (.explore data), b⟩) begun next
      answers.not_met answers.remembered rfl data
    rw [← Frontier.toList_pushFront, ← Frontier.toList_push, ← complete] at after
    exact ⟨.inl complete, after⟩
  | drop pop begun next answer full =>
    have answers := once.transition_eq answer
    exact ⟨.inr (spent_of_full full),
      (head pop).drop begun next answers.not_met answers.remembered rfl⟩
  | pass pop begun next answer none =>
    have answers := once.transition_eq answer
    obtain ⟨known, rfl⟩ := answers.ignore_of_none none
    exact ⟨k.1, (head pop).pass begun next known answers.remembered rfl⟩
  | stop pop begun next answer => exact absurd rfl (once.transition_eq answer).ne_stop

theorem accompanied_history (once : g.ExploresOnce met) {m : ν} (fresh : ∀ s, ¬ met m s)
    (one : o = .depthFirst → ∀ s ∈ M.initial, ∀ r ∈ M.initial, r = s) (limit : Option Nat)
    (n : Nat) :
    (Tour.after g n (welcome g M.initial (⟨.empty, limit, true⟩ : Tour M A o δ) m)).Accompanied met
      (history g M A o limit m n) [] := by
  refine invariant_history (fun ts unasked st => st.Accompanied met ts unasked) ?_ ?_ ?_ ?_ n
  · intro limit p f ts s rest d st h initial k
    have alike : o = .depthFirst → ∀ r ∈ rest, r = s := fun deep r hr =>
      one deep s (initial s List.mem_cons_self) r (initial r (List.mem_cons_of_mem s hr))
    exact h.accompanied once alike k _
  · exact fun _ _ _ k => k
  · exact fun limit p f ts call st h k => h.accompanied once k _
  · exact ⟨.inl rfl, .beside (.start fresh) fun _ => rfl⟩

theorem Status.Accompanied.tells (k : st.Accompanied met ts unasked) :
    ∃ evs w, Tells M A o ts evs w := by
  cases st with
  | going t m => exact k.2.tells
  | done r => exact k

/-- Whatever a tour that explores every state once has come to, a search of the same order starts
the same states first. -/
theorem tells_history (once : g.ExploresOnce met) {m : ν} (fresh : ∀ s, ¬ met m s)
    (one : o = .depthFirst → ∀ s ∈ M.initial, ∀ r ∈ M.initial, r = s) (limit : Option Nat)
    (n : Nat) : ∃ evs w, Tells M A o (history g M A o limit m n) evs w :=
  (accompanied_history once fresh one limit n).tells

end Calls

variable [DecidableEq σ] [Hashable σ]

open Search (nextState) in
/-- A guide that explores every state once leads a tour to an end, if there is a limit or only
finitely many states are reachable. The tour starts as many of these as the limit allows, and its
flag tells whether they are all. They are the first that a search of the same order starts;
depth-first there must be one initial state, which may be listed more than once. -/
theorem explore_once {g : Guide σ ι τ δ ν} {met : ν → σ → Prop} (once : g.ExploresOnce met) {m : ν}
    (fresh : ∀ s, ¬ met m s) (M : TransitionSystem σ ι τ) (A : List ι) (o : Order)
    {limit : Option Nat} (bounded : limit ≠ none ∨ {t | M.Reachable A t}.Finite) :
    (∃ n r, explore g.logged M A o limit (m, #[]) n = some r) ∧
    ∀ n r, explore g.logged M A o limit (m, #[]) n = some r →
      let L := (r.memory.2.toList.filterMap Call.begun?).map (·.1)
      let R := {t | M.Reachable A t}
      L.Nodup ∧ (∀ s ∈ L, M.Reachable A s) ∧
      (L.length : ℕ∞) = limit.elim R.encard (fun k => min k R.encard) ∧
      (limit = none → ∀ s, s ∈ L ↔ M.Reachable A s) ∧
      (r.complete = true ↔ ∀ k ∈ limit, R.encard ≤ k) ∧
      (o = .breadthFirst →
        (draw nextState (Search.begin M A .breadthFirst Unit) L.length).1 = L.map some) ∧
      (o = .depthFirst → (∀ s ∈ M.initial, ∀ s' ∈ M.initial, s = s') →
        (draw nextState (Search.begin M A .depthFirst Unit) L.length).1 = L.map some) := by
  have logged := once.logged
  refine ⟨explore_ends_of_once logged fresh bounded, fun n r ended => ?_⟩
  intro L R
  have begun_eq : L = (begun (history g.logged M A o limit (m, #[]) n)).map (·.1) := by
    have calls := calls_history g M A o limit m n
    rw [explore_eq_some_iff.1 ended] at calls
    change r.memory.2.toList = _ at calls
    simp only [L, calls, begun, List.filterMap_map]
    rfl
  obtain ⟨nodup, reachable, length, all, complete⟩ := begun_of_once logged fresh ended
  rw [← begun_eq] at nodup reachable length all
  refine ⟨nodup, reachable, length, all, complete, ?_⟩
  have drawn (one : o = .depthFirst → ∀ s ∈ M.initial, ∀ r ∈ M.initial, r = s) :
      (draw nextState (Search.begin M A o Unit) L.length).1 = L.map some := by
    obtain ⟨evs, w, tells⟩ := tells_history (A := A) logged (m := (m, #[])) fresh one limit n
    have starts : (started evs).map (w.states[·]?) = L.map some := by
      rw [tells.starts, begun_eq, List.map_map]
      rfl
    have count := congrArg List.length starts
    rw [List.length_map, List.length_map] at count
    rw [← count, Search.draw_nextState_of_run tells.run, starts]
  constructor
  · rintro rfl
    exact drawn (by simp)
  · rintro rfl single
    exact drawn fun _ s hs r hr => single r hr s hs

/-- Under a limit of two both states are started, and none is dropped. -/
theorem explore_once_toggle :
    let r : Outcome (List Bool × Array (Call Bool Char Bool Unit)) :=
      ⟨true, [true, false], #[.initial false (.explore ()), .initial false .ignore,
        .start false () true, .transition false () 'a' true true (.explore ()),
        .start true () true, .transition true () 'a' false false .ignore,
        .transition true () 'a' true true .ignore, .transition false () 'a' false false .ignore]⟩
    explore Guide.collector.logged Search.toggle ['a'] .depthFirst (some 2) ([], #[]) 10 = some r ∧
      {t | Search.toggle.Reachable ['a'] t}.encard ≤ 2 ∧
      (draw Search.nextState (Search.begin Search.toggle ['a'] .depthFirst Unit) 2).1 =
        [some false, some true] := by
  intro r
  have ended : explore Guide.collector.logged Search.toggle ['a'] .depthFirst (some 2) ([], #[])
      10 = some r := rfl
  have limited : some 2 ≠ (none : Option Nat) := by decide
  obtain ⟨-, told⟩ := explore_once Guide.exploresOnce_collector (m := []) (fun _ => List.not_mem_nil)
    Search.toggle ['a'] .depthFirst (.inl limited)
  obtain ⟨-, -, -, -, complete, -, deep⟩ := told 10 r ended
  exact ⟨ended, complete.1 rfl 2 rfl, deep rfl (by simp [Search.toggle])⟩

end Exploration.Tour
