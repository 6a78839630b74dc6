import Mathlib.Data.List.Forall2
import Exploration.Proofs.Tour.Progress
import Exploration.Proofs.Traversal.Advance

/-!
# Tours by way of a traversal

What an eager tour does, a consumer of a lazy traversal can do with the same guide: it asks about
the initial states itself, schedules those it keeps on a traversal without initial states, and
asks the guide at every start and every edge. The two walk abreast, except that breadth-first a
state given up is still to be finished by the traversal when the tour has already dropped it.
-/

namespace Exploration

variable {σ ι τ δ ν ε : Type}

/-- The system without its initial states. -/
def TransitionSystem.rootless (M : TransitionSystem σ ι τ) : TransitionSystem σ ι τ :=
  { M with initial := [] }

/-- The list in the order in which its elements are to be scheduled. -/
def Order.arrange : Order → List ε → List ε
  | .breadthFirst, es => es
  | .depthFirst, es => es.reverse

namespace Tour

variable {M : TransitionSystem σ ι τ} {A : List ι} {o : Order}

inductive Consumer (M : TransitionSystem σ ι τ) (A : List ι) (o : Order) (δ ν : Type) where
  | going (u : Traversal M.rootless A o δ) (p : Progress ν)
  | done (outcome : Outcome ν)

namespace Consumer

def stage : Consumer M A o δ ν → Stage ν
  | going _ p => .underway p.memory
  | done r => .ended r

/-- Asks the guide about an event of the traversal `u`, which stands behind the event. -/
def attend (g : Guide σ ι τ δ ν) (limit : Option Nat) (u : Traversal M.rootless A o δ)
    (p : Progress ν) : Event σ ι τ → Consumer M A o δ ν
  | .initial _ => going u p
  | .start r _ =>
    match u.record? r with
    | none => going u p
    | some rec =>
      match g.onStart p.memory rec.state rec.data with
      | (true, m) => going u (p.remember m)
      | (false, m) => going u.skipState.2 (p.remember m)
  | .edge r i x target =>
    match u.record? r with
    | none => going u p
    | some rec =>
      match g.onTransition p.memory rec.state rec.data i x target with
      | (.explore data, m) =>
        if p.honours limit then going (u.schedule target data) (p.remember m).honour
        else going u (p.remember m).drop
      | (.ignore, m) => going u (p.remember m)
      | (.skipLetter, m) => going u.skipLetter.2 (p.remember m)
      | (.skipState, m) => going u.skipState.2 (p.remember m)
      | (.stop, m) => done (p.remember m).outcome
  | .finish _ _ _ => going u p

/-- Asks the traversal for one more event. -/
def step (g : Guide σ ι τ δ ν) (limit : Option Nat) : Consumer M A o δ ν → Consumer M A o δ ν
  | going u p =>
    match u.next with
    | (none, _) => done p.outcome
    | (some e, u) => attend g limit u p e
  | done r => done r

/-- Where the consumer is when it has asked for at most `n` events. -/
def after (g : Guide σ ι τ δ ν) (limit : Option Nat) :
    Nat → Consumer M A o δ ν → Consumer M A o δ ν
  | 0, c => c
  | n + 1, c => (after g limit n c).step g limit

def scheduleAll (kept : List (σ × δ)) (u : Traversal M.rootless A o δ) :
    Traversal M.rootless A o δ :=
  kept.foldl (fun u k => u.schedule k.1 k.2) u

/-- Asks about the initial states and schedules those kept. -/
def begin (g : Guide σ ι τ δ ν) (M : TransitionSystem σ ι τ) (A : List ι) (o : Order)
    (limit : Option Nat) (m : ν) : Consumer M A o δ ν :=
  match invite g limit M.initial (.start m) with
  | (some kept, p) => going (scheduleAll (o.arrange kept) (.begin M.rootless A o δ)) p
  | (none, p) => done p.outcome

end Consumer

/-- The visit `w` of the traversal is the visit `v` of the tour, with its data in the records. -/
structure Mirrors (records : Array (Record σ δ)) (v : Visit σ ι τ δ)
    (w : Visit σ ι τ RecordIndex) : Prop where
  record : records[w.label]? = some ⟨v.state, v.label⟩
  state : w.state = v.state
  place : w.place = v.place
  started : w.started = v.started

namespace Mirrors

variable {records : Array (Record σ δ)} {v : Visit σ ι τ δ} {w : Visit σ ι τ RecordIndex}

theorem planned (records : Array (Record σ δ)) (A : List ι) (s : σ) (data : δ) :
    Mirrors (records.push ⟨s, data⟩) (.planned A data s : Visit σ ι τ δ)
      (.planned A records.size s) where
  record := Array.getElem?_push_size
  state := rfl
  place := rfl
  started := rfl

theorem push (h : Mirrors records v w) (rec : Record σ δ) : Mirrors (records.push rec) v w where
  record := by
    have lt : w.label < records.size := (Array.getElem?_eq_some_iff.1 h.record).1
    rw [Array.getElem?_push, if_neg (Nat.ne_of_lt lt)]
    exact h.record
  state := h.state
  place := h.place
  started := h.started

theorem start (h : Mirrors records v w) : Mirrors records v.start w.start :=
  ⟨h.record, h.state, h.place, rfl⟩

theorem skipLetter (h : Mirrors records v w) : Mirrors records v.skipLetter w.skipLetter :=
  ⟨h.record, h.state, congrArg Cursor.skipRow h.place, h.started⟩

theorem next (h : Mirrors records v w) {w' : Visit σ ι τ RecordIndex} {y : Option (ι × τ)}
    (step : w.next M = (y, w')) : ∃ v', v.next M = (y, v') ∧ Mirrors records v' w' := by
  rw [Visit.next, h.state, h.place] at step
  obtain ⟨rfl, rfl⟩ := Prod.mk.inj step
  exact ⟨_, rfl, h.record, rfl, rfl, h.started⟩

end Mirrors

/-- The visits of the traversal are those of the tour, or one more that is at its end and stands
before them; `lag` counts that one. -/
inductive Abreast (f : Frontier (Visit σ ι τ δ)) (u : Traversal M.rootless A o δ) : Nat → Prop
  | level (unread : u.unread = [])
      (same : List.Forall₂ (Mirrors u.records) f.toList u.pending) : Abreast f u 0
  | behind {z z' : Visit σ ι τ RecordIndex} {ws : List (Visit σ ι τ RecordIndex)}
      (unread : u.unread = []) (head : u.pending = z :: ws) (begun : z.started = true)
      (last : z.next M.rootless = (none, z'))
      (same : List.Forall₂ (Mirrors u.records) f.toList ws) : Abreast f u 1

/-- Tour and consumer have made the same progress. -/
inductive Agree (limit : Option Nat) : Nat → Status M A o δ ν → Consumer M A o δ ν → Prop
  | going {lag : Nat} {p : Progress ν} {f : Frontier (Visit σ ι τ δ)}
      {u : Traversal M.rootless A o δ} (abreast : Abreast f u lag) :
      Agree limit lag (p.going limit f) (.going u p)
  | done {r : Outcome ν} : Agree limit 0 (.done r) (.done r)

theorem Agree.stage_eq {limit : Option Nat} {lag : Nat} {st : Status M A o δ ν}
    {c : Consumer M A o δ ν} (h : Agree limit lag st c) : st.stage = c.stage := by
  cases h <;> rfl

section Simulation

variable {g : Guide σ ι τ δ ν} {limit : Option Nat} {p : Progress ν}
  {f rest : Frontier (Visit σ ι τ δ)} {u : Traversal M.rootless A o δ}
  {v : Visit σ ι τ δ} {w : Visit σ ι τ RecordIndex} {ws : List (Visit σ ι τ RecordIndex)}

/-- The visits stay the same when both sides schedule a state. -/
theorem mirrors_schedule {vs : List (Visit σ ι τ δ)}
    (same : List.Forall₂ (Mirrors u.records) vs u.pending) (s : σ) (data : δ) :
    List.Forall₂ (Mirrors (u.schedule s data).records) (o.place (.planned A data s) vs)
      (u.schedule s data).pending := by
  have old : List.Forall₂ (Mirrors (u.records.push ⟨s, data⟩)) vs u.pending :=
    List.Forall₂.imp (fun _ _ h => h.push _) same
  have new := Mirrors.planned (τ := τ) u.records A s data
  rw [Traversal.pending, Traversal.frontier_schedule, Frontier.toList_push]
  cases o with
  | breadthFirst => exact List.rel_append old (.cons new .nil)
  | depthFirst => exact .cons new old

theorem abreast_skipLetter (unread : u.unread = []) (head : u.pending = w :: ws)
    (mirror : Mirrors u.records v w) (same : List.Forall₂ (Mirrors u.records) rest.toList ws) :
    Abreast (rest.pushFront v.skipLetter) u.skipLetter.2 0 := by
  obtain ⟨t, ht, unread', records, pending⟩ := Traversal.skipLetter_of_cons head
  rw [ht]
  refine .level (unread'.trans unread) ?_
  change List.Forall₂ (Mirrors t.records) _ t.pending
  rw [records, pending]
  exact .cons mirror.skipLetter same

/-- Giving up the head drops it at once, or leaves it to be finished. -/
theorem abreast_skipState (unread : u.unread = []) (head : u.pending = w :: ws)
    (begun : w.started = true) (same : List.Forall₂ (Mirrors u.records) rest.toList ws) :
    ∃ lag ≤ 1, Abreast rest u.skipState.2 lag := by
  obtain ⟨t, ht, unread', records, pending⟩ := Traversal.skipState_of_cons head
  rw [ht]
  rw [← records] at same
  cases o with
  | breadthFirst =>
    exact ⟨1, Nat.le_refl 1, .behind (unread'.trans unread) pending begun rfl same⟩
  | depthFirst =>
    refine ⟨0, Nat.zero_le 1, .level (unread'.trans unread) ?_⟩
    change List.Forall₂ (Mirrors t.records) _ t.pending
    rw [pending]
    exact same

theorem agree_start (pop : f.pop? = some (v, rest)) (fresh : v.started = false)
    (unread : u.unread = []) (head : u.pending = w.start :: ws) (mirror : Mirrors u.records v w)
    (same : List.Forall₂ (Mirrors u.records) rest.toList ws) :
    ∃ lag ≤ 1, Agree limit lag ((p.tour limit f : Tour M A o δ).step g p.memory)
      (Consumer.attend g limit u p (.start w.label w.state)) := by
  rw [Progress.step_of_planned pop fresh, Consumer.attend]
  rw [show u.record? w.label = some ⟨v.state, v.label⟩ from mirror.record]
  dsimp only
  rcases g.onStart p.memory v.state v.label with ⟨accepted, m⟩
  cases accepted with
  | true =>
    refine ⟨0, Nat.zero_le 1, .going (.level unread ?_)⟩
    rw [head]
    exact .cons mirror.start same
  | false =>
    obtain ⟨lag, le, abreast⟩ := abreast_skipState unread head rfl same
    exact ⟨lag, le, .going abreast⟩

theorem agree_edge {v' : Visit σ ι τ δ} {i : ι} {x : τ} (pop : f.pop? = some (v, rest))
    (begun : v.started = true) (next : v.next M = (some (i, x), v')) (unread : u.unread = [])
    (head : u.pending = w :: ws) (mirror : Mirrors u.records v' w)
    (same : List.Forall₂ (Mirrors u.records) rest.toList ws) :
    ∃ lag ≤ 1, Agree limit lag ((p.tour limit f : Tour M A o δ).step g p.memory)
      (Consumer.attend g limit u p (.edge w.label i x (M.successor x))) := by
  obtain ⟨-, label, state, started, -⟩ := Visit.next_of_some next
  have heads : List.Forall₂ (Mirrors u.records) (rest.pushFront v').toList u.pending := by
    rw [head]
    exact .cons mirror same
  rw [Progress.step_of_transition pop begun next, Consumer.attend]
  rw [show u.record? w.label = some ⟨v'.state, v'.label⟩ from mirror.record, state, label]
  dsimp only
  rcases g.onTransition p.memory v.state v.label i x (M.successor x) with ⟨decision, m⟩
  cases decision with
  | explore data =>
    by_cases h : p.honours limit = true
    · simp only [if_pos h]
      refine ⟨0, Nat.zero_le 1, .going (.level unread ?_)⟩
      rw [Frontier.toList_push]
      exact mirrors_schedule heads (M.successor x) data
    · simp only [if_neg h]
      exact ⟨0, Nat.zero_le 1, .going (.level unread heads)⟩
  | ignore => exact ⟨0, Nat.zero_le 1, .going (.level unread heads)⟩
  | skipLetter => exact ⟨0, Nat.zero_le 1, .going (abreast_skipLetter unread head mirror same)⟩
  | skipState =>
    have walked : w.started = true := mirror.started.trans (started.trans begun)
    obtain ⟨lag, le, abreast⟩ := abreast_skipState unread head walked same
    exact ⟨lag, le, .going abreast⟩
  | stop => exact ⟨0, Nat.zero_le 1, .done⟩

/-- A consumer that is behind catches up with one event. -/
theorem step_behind (g : Guide σ ι τ δ ν) (limit : Option Nat) (p : Progress ν)
    (abreast : Abreast f u 1) :
    ∃ u', (Consumer.going u p).step g limit = .going u' p ∧ Abreast f u' 0 := by
  cases abreast with
  | behind unread head begun last same =>
    obtain ⟨e, u', hn, adv⟩ := Traversal.next_of_cons head
    rw [Consumer.step, hn]
    cases adv with
    | initial idle unread' => cases unread.symm.trans unread'
    | start ready head' fresh =>
      obtain ⟨rfl, rfl⟩ := List.cons.inj (head.symm.trans head')
      cases begun.symm.trans fresh
    | edge ready head' begun' step =>
      obtain ⟨rfl, rfl⟩ := List.cons.inj (head.symm.trans head')
      cases last.symm.trans step
    | finish ready head' begun' step unread' records pending =>
      obtain ⟨rfl, rfl⟩ := List.cons.inj (head.symm.trans head')
      refine ⟨u', rfl, .level (unread'.trans unread) ?_⟩
      rw [records, pending]
      exact same

theorem agree_level (g : Guide σ ι τ δ ν) (limit : Option Nat) (p : Progress ν)
    (abreast : Abreast f u 0) :
    ∃ lag ≤ 1, Agree limit lag ((p.tour limit f : Tour M A o δ).step g p.memory)
      ((Consumer.going u p).step g limit) := by
  obtain ⟨unread, same⟩ := abreast
  rw [Consumer.step]
  cases pop : f.pop? with
  | none =>
    rw [Frontier.pop?_eq_none_iff.1 pop, List.forall₂_nil_left_iff] at same
    have ended : u.next = (none, u.next.2) :=
      Prod.ext (Traversal.next_eq_none_iff.2 ⟨unread, same⟩) rfl
    rw [ended, Progress.step_of_none pop]
    exact ⟨0, Nat.zero_le 1, .done⟩
  | some q =>
    obtain ⟨v, rest⟩ := q
    rw [Frontier.toList_of_pop?_eq_some pop, List.forall₂_cons_left_iff] at same
    obtain ⟨w, ws, mirror, same, head⟩ := same
    obtain ⟨e, u', hn, adv⟩ := Traversal.next_of_cons head
    rw [hn]
    cases adv with
    | initial idle unread' => cases unread.symm.trans unread'
    | start ready head' fresh unread' records pending =>
      obtain ⟨rfl, rfl⟩ := List.cons.inj (head.symm.trans head')
      rw [← records] at mirror same
      exact agree_start pop (mirror.started.symm.trans fresh) (unread'.trans unread) pending mirror
        same
    | @edge _ w' _ q _ ready head' begun step unread' records pending =>
      obtain ⟨rfl, rfl⟩ := List.cons.inj (head.symm.trans head')
      rw [← records] at mirror same
      obtain ⟨v', next, mirror'⟩ := mirror.next step
      rw [← (Visit.next_of_some step).2.1]
      exact agree_edge pop (mirror.started.symm.trans begun) next (unread'.trans unread) pending
        mirror' same
    | finish ready head' begun step unread' records pending =>
      obtain ⟨rfl, rfl⟩ := List.cons.inj (head.symm.trans head')
      obtain ⟨v', next, -⟩ := mirror.next step
      rw [Progress.step_of_end (M := M) pop (mirror.started.symm.trans begun) next]
      refine ⟨0, Nat.zero_le 1, .going (.level (unread'.trans unread) ?_)⟩
      rw [records, pending]
      exact same

/-- One event of the consumer is one step of the tour, or none if the consumer was behind. -/
theorem agree_step {lag : Nat} {st : Status M A o δ ν} {c : Consumer M A o δ ν}
    (h : Agree limit lag st c) :
    ∃ k lag', lag' + 1 ≤ 2 * k + lag ∧ Agree limit lag' (after g k st) (c.step g limit) := by
  cases h with
  | done => exact ⟨1, 0, by omega, .done⟩
  | @going lag p f u abreast =>
    cases lag with
    | zero =>
      obtain ⟨lag', le, agree⟩ := agree_level g limit p abreast
      exact ⟨1, lag', by omega, agree⟩
    | succ lag =>
      obtain rfl : lag = 0 := by cases abreast; rfl
      obtain ⟨u', caught, level⟩ := step_behind g limit p abreast
      rw [caught]
      exact ⟨0, 0, by omega, .going level⟩

/-- Being behind was paid for by the step that gave the state up, so the tour takes at least half as
many steps as the consumer gets events. -/
theorem agree_after {st : Status M A o δ ν} {c : Consumer M A o δ ν} (h : Agree limit 0 st c)
    (n : Nat) : ∃ k lag, n + lag ≤ 2 * k ∧ Agree limit lag (after g k st) (c.after g limit n) := by
  induction n with
  | zero => exact ⟨0, 0, by omega, h⟩
  | succ n ih =>
    obtain ⟨k, lag, pace, agree⟩ := ih
    obtain ⟨k', lag', pace', agree'⟩ := agree_step (g := g) agree
    refine ⟨k + k', lag', by omega, ?_⟩
    rw [after_add]
    exact agree'

end Simulation

theorem mirrors_scheduleAll (kept : List (σ × δ)) {vs : List (Visit σ ι τ δ)}
    {u : Traversal M.rootless A o δ} (same : List.Forall₂ (Mirrors u.records) vs u.pending) :
    List.Forall₂ (Mirrors (Consumer.scheduleAll kept u).records)
      (kept.foldl (fun vs k => o.place (.planned A k.2 k.1) vs) vs)
      (Consumer.scheduleAll kept u).pending := by
  induction kept generalizing vs u with
  | nil => exact same
  | cons k rest ih => exact ih (mirrors_schedule same k.1 k.2)

theorem unread_scheduleAll (kept : List (σ × δ)) (u : Traversal M.rootless A o δ) :
    (Consumer.scheduleAll kept u).unread = u.unread := by
  induction kept generalizing u with
  | nil => rfl
  | cons k rest ih => exact ih (u.schedule k.1 k.2)

/-- Scheduled in the order arranged for it, the states kept come in their own order. -/
theorem foldl_place_arrange (o : Order) (plan : ε → Visit σ ι τ δ) (kept : List ε) :
    (o.arrange kept).foldl (fun vs k => o.place (plan k) vs) [] = kept.map plan := by
  cases o with
  | breadthFirst =>
    have grow (vs : List (Visit σ ι τ δ)) :
        kept.foldl (fun vs k => vs ++ [plan k]) vs = vs ++ kept.map plan := by
      induction kept generalizing vs with
      | nil => simp
      | cons k rest ih => simp [ih]
    exact grow []
  | depthFirst =>
    rw [Order.arrange, List.foldl_reverse]
    exact List.map_eq_foldr.symm

theorem agree_begin (g : Guide σ ι τ δ ν) (M : TransitionSystem σ ι τ) (A : List ι) (o : Order)
    (limit : Option Nat) (m : ν) :
    Agree limit 0 (welcome g M.initial (⟨.empty, limit, true⟩ : Tour M A o δ) m)
      (Consumer.begin g M A o limit m) := by
  rw [welcome_start, Consumer.begin]
  rcases invite g limit M.initial (.start m) with ⟨_ | kept, p⟩
  · exact .done
  · refine .going (.level (unread_scheduleAll _ _) ?_)
    have scheduled := mirrors_scheduleAll (u := .begin M.rootless A o δ) (o.arrange kept) .nil
    rw [foldl_place_arrange] at scheduled
    rwa [toList_enqueue_empty]

/-- The tour and the consumer of a traversal make the same calls and end alike, in both orders and
for every guide. -/
theorem explore_iff_consumer (g : Guide σ ι τ δ ν) (M : TransitionSystem σ ι τ) (A : List ι)
    (o : Order) (limit : Option Nat) (m : ν) :
    let c := Consumer.begin g.logged M A o limit (m, #[])
    (∀ r, (∃ n, explore g.logged M A o limit (m, #[]) n = some r) ↔
      ∃ n, (c.after g.logged limit n).stage = .ended r) ∧
    ∀ calls, (∃ n, calls <+: (stage g.logged M A o limit (m, #[]) n).calls) ↔
      ∃ n, calls <+: (c.after g.logged limit n).stage.calls := by
  apply explore_of_alike
  apply Stage.alike_of_keeps_up (grows_stage g M A o limit (m, #[]))
  intro n
  obtain ⟨k, lag, pace, agree⟩ := agree_after (g := g.logged)
    (agree_begin g.logged M A o limit (m, #[])) n
  refine ⟨k, agree.stage_eq, ?_⟩
  intro
  omega

end Tour

end Exploration
