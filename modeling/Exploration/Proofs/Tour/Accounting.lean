import Mathlib.Data.List.Perm.Subperm
import Exploration.Proofs.Tour.History
import Exploration.Proofs.Traversal.History

/-!
# The accounts of a tour

Every choice to explore is honoured until the limit is reached, and dropped from then on. A state
taken on is either still to be started or was started, once: `Accounted` is this balance between
the answers, the budget and the pending visits. It is kept by every call, so it holds whenever a
tour ends, however its guide answers.
-/

namespace Exploration.Tour

variable {σ ι τ δ ν : Type} {M : TransitionSystem σ ι τ} {A : List ι} {o : Order}

/-- The choices to explore, each with whether it was honoured. -/
def choices (ts : List (Turn σ ι τ δ)) : List ((σ × δ) × Bool) := ts.filterMap Turn.choice?

/-- The choices that were honoured. -/
def honoured (ts : List (Turn σ ι τ δ)) : List (σ × δ) :=
  ((choices ts).filter (·.2)).map (·.1)

/-- The states whose exploration was begun or declined, with their data. -/
def begun (ts : List (Turn σ ι τ δ)) : List (σ × δ) := ts.filterMap (·.call.begun?)

theorem choices_snoc (ts : List (Turn σ ι τ δ)) (t : Turn σ ι τ δ) :
    choices (ts ++ [t]) = choices ts ++ t.choice?.toList := by
  cases h : t.choice? <;> simp [choices, h]

theorem begun_snoc (ts : List (Turn σ ι τ δ)) (t : Turn σ ι τ δ) :
    begun (ts ++ [t]) = begun ts ++ t.call.begun?.toList := by
  cases h : t.call.begun? <;> simp [begun, h]

theorem Turn.choice?_of_none {t : Turn σ ι τ δ} (h : t.call.chosen? = none) : t.choice? = none := by
  rw [choice?, h]
  rfl

theorem Turn.choice?_of_some {t : Turn σ ι τ δ} {a : σ × δ} (h : t.call.chosen? = some a) :
    t.choice? = some (a, t.taken) := by
  rw [choice?, h]
  rfl

/-- The states taken on that are still to be started. -/
def unstarted (vs : List (Visit σ ι τ δ)) : List (σ × δ) :=
  (vs.filter (!·.started)).map fun v => (v.state, v.label)

section Unstarted

variable {v : Visit σ ι τ δ} {vs : List (Visit σ ι τ δ)}

theorem unstarted_cons_of_started (h : v.started = true) : unstarted (v :: vs) = unstarted vs := by
  simp [unstarted, h]

theorem unstarted_cons_of_fresh (h : v.started = false) :
    unstarted (v :: vs) = (v.state, v.label) :: unstarted vs := by
  simp [unstarted, h]

theorem unstarted_snoc_planned (A : List ι) (s : σ) (data : δ) (vs : List (Visit σ ι τ δ)) :
    unstarted (vs ++ [.planned A data s]) = unstarted vs ++ [(s, data)] := by
  simp [unstarted, Visit.planned]

theorem unstarted_place (o : Order) (A : List ι) (s : σ) (data : δ) (vs : List (Visit σ ι τ δ)) :
    (unstarted (o.place (.planned A data s) vs)).Perm ((s, data) :: unstarted vs) ∧
      (o = .breadthFirst →
        unstarted (o.place (.planned A data s) vs) = unstarted vs ++ [(s, data)]) := by
  cases o with
  | breadthFirst =>
    have last := unstarted_snoc_planned A s data vs
    exact ⟨last ▸ List.perm_append_singleton _ _, fun _ => last⟩
  | depthFirst => exact ⟨.refl _, nofun⟩

end Unstarted

/-- The balance after the calls `ts`, with the visits `vs` pending. -/
structure Accounted (o : Order) (limit : Option Nat) (ts : List (Turn σ ι τ δ)) (p : Progress ν)
    (vs : List (Visit σ ι τ δ)) (early late : List (σ × δ)) : Prop where
  choices : choices ts = early.map (·, true) ++ late.map (·, false)
  count : p.honoured = early.length
  within : ∀ k ∈ limit, p.honoured ≤ k
  /-- A choice is dropped only when the limit is reached. -/
  full : late = [] ∨ limit = some p.honoured
  complete : p.complete = true ↔ late = []
  balance : (begun ts ++ unstarted vs).Perm early
  order : o = .breadthFirst → begun ts ++ unstarted vs = early

namespace Accounted

variable {limit : Option Nat} {ts : List (Turn σ ι τ δ)} {t : Turn σ ι τ δ} {p : Progress ν}
  {vs vs' : List (Visit σ ι τ δ)} {early late : List (σ × δ)} {a : σ × δ}

theorem start (o : Order) (limit : Option Nat) (m : ν) :
    Accounted o limit ([] : List (Turn σ ι τ δ)) (.start m) [] [] [] where
  choices := rfl
  count := rfl
  within _ _ := Nat.zero_le _
  full := .inl rfl
  complete := by simp [Progress.start]
  balance := .nil
  order _ := rfl

theorem remember (k : Accounted o limit ts p vs early late) (m : ν) :
    Accounted o limit ts (p.remember m) vs early late :=
  ⟨k.choices, k.count, k.within, k.full, k.complete, k.balance, k.order⟩

/-- Visits that are not to be started may change. -/
theorem carry (k : Accounted o limit ts p vs early late) (same : unstarted vs' = unstarted vs) :
    Accounted o limit ts p vs' early late :=
  ⟨k.choices, k.count, k.within, k.full, k.complete, same ▸ k.balance, same ▸ k.order⟩

/-- A call that starts no state and chooses none. -/
theorem pass (k : Accounted o limit ts p vs early late) (chosen : t.call.chosen? = none)
    (started : t.call.begun? = none) : Accounted o limit (ts ++ [t]) p vs early late where
  choices := by simpa [choices_snoc, Turn.choice?_of_none chosen] using k.choices
  count := k.count
  within := k.within
  full := k.full
  complete := k.complete
  balance := by simpa [begun_snoc, started] using k.balance
  order := by simpa [begun_snoc, started] using k.order

/-- The first state to be started is started. -/
theorem begin (k : Accounted o limit ts p vs early late) (started : t.call.begun? = some a)
    (chosen : t.call.chosen? = none) (first : unstarted vs = a :: unstarted vs') :
    Accounted o limit (ts ++ [t]) p vs' early late where
  choices := by simpa [choices_snoc, Turn.choice?_of_none chosen] using k.choices
  count := k.count
  within := k.within
  full := k.full
  complete := k.complete
  balance := by simpa [begun_snoc, started, first] using k.balance
  order := by simpa [begun_snoc, started, first] using k.order

theorem honours_iff (k : Accounted o limit ts p vs early late) :
    p.honours limit = true ↔ limit ≠ some p.honoured := by
  cases limit with
  | none => simp [Progress.honours]
  | some n =>
    have within := k.within n rfl
    simp only [Progress.honours, Option.all_some, decide_eq_true_eq, ne_eq, Option.some.injEq]
    omega

/-- A choice that is honoured: none was dropped before, and the state is to be started. -/
theorem honour (k : Accounted o limit ts p vs early late) (free : p.honours limit = true)
    (chosen : t.call.chosen? = some a) (taken : t.taken = true) (started : t.call.begun? = none)
    (enters : (unstarted vs').Perm (a :: unstarted vs))
    (last : o = .breadthFirst → unstarted vs' = unstarted vs ++ [a]) :
    Accounted o limit (ts ++ [t]) p.honour vs' (early ++ [a]) late := by
  have room : limit ≠ some p.honoured := k.honours_iff.1 free
  have undropped : late = [] := k.full.resolve_right room
  have same : begun (ts ++ [t]) = begun ts := by simp [begun_snoc, started]
  constructor
  case choices => simp [choices_snoc, Turn.choice?_of_some chosen, taken, k.choices, undropped]
  case count =>
    rw [List.length_append, ← k.count]
    rfl
  case within =>
    intro n hn
    have within := k.within n hn
    have ne : n ≠ p.honoured := fun h => room (h ▸ hn)
    change p.honoured + 1 ≤ n
    omega
  case full => exact .inl undropped
  case complete => exact k.complete
  case balance =>
    rw [same]
    calc List.Perm (begun ts ++ unstarted vs') (begun ts ++ a :: unstarted vs) :=
          enters.append_left _
      List.Perm _ (a :: (begun ts ++ unstarted vs)) := List.perm_middle
      List.Perm _ (a :: early) := k.balance.cons a
      List.Perm _ (early ++ [a]) := (List.perm_append_singleton a early).symm
  case order =>
    intro wide
    rw [same, last wide, ← List.append_assoc, k.order wide]

/-- A choice that is dropped: the limit is reached. -/
theorem drop (k : Accounted o limit ts p vs early late) (full : ¬ p.honours limit = true)
    (chosen : t.call.chosen? = some a) (taken : t.taken = false)
    (started : t.call.begun? = none) :
    Accounted o limit (ts ++ [t]) p.drop vs early (late ++ [a]) where
  choices := by simp [choices_snoc, Turn.choice?_of_some chosen, taken, k.choices]
  count := k.count
  within := k.within
  full := .inr (Decidable.not_not.1 fun room => full (k.honours_iff.2 room))
  complete := by simp [Progress.drop]
  balance := by simpa [begun_snoc, started] using k.balance
  order := by simpa [begun_snoc, started] using k.order

end Accounted

/-- The accounts of a tour after the calls `ts`; a tour ends when nothing is pending or the guide
stops it. -/
inductive Balanced (limit : Option Nat) (ts : List (Turn σ ι τ δ)) : Status M A o δ ν → Prop
  | going {p : Progress ν} {f : Frontier (Visit σ ι τ δ)} {early late : List (σ × δ)}
      (k : Accounted o limit ts p f.toList early late) : Balanced limit ts (p.going limit f)
  | done {p : Progress ν} {vs : List (Visit σ ι τ δ)} {early late : List (σ × δ)}
      (k : Accounted o limit ts p vs early late)
      (ended : vs = [] ∨ ∃ t ∈ ts, t.call.Stops) : Balanced limit ts (.done p.outcome)

section Calls

variable {g : Guide σ ι τ δ ν} {limit : Option Nat} {ts : List (Turn σ ι τ δ)} {p : Progress ν}
  {f : Frontier (Visit σ ι τ δ)} {st : Status M A o δ ν} {early late : List (σ × δ)}

theorem Greets.balanced {s : σ} {d : Decision δ} (h : Greets g limit p f s d st)
    (k : Accounted o limit ts p f.toList early late) :
    Balanced limit (ts ++ [⟨.initial s d, (p.tour limit f : Tour M A o δ).load < st.load⟩]) st := by
  cases h with
  | @honour data m answer free =>
    have last : unstarted (f.pushBack (.planned A data s)).toList =
        unstarted f.toList ++ [(s, data)] := by
      rw [Frontier.toList_pushBack]
      exact unstarted_snoc_planned A s data f.toList
    have taken := decide_eq_true (load_lt_pushBack (M := M) (A := A) (o := o) limit p
      (p.remember m).honour f (.planned A data s))
    refine .going ((k.remember m).honour free rfl taken rfl ?_ fun _ => last)
    rw [last]
    exact List.perm_append_singleton _ _
  | @drop data m answer full =>
    exact .going ((k.remember m).drop full rfl (decide_eq_false (Nat.lt_irrefl _)) rfl)
  | @pass d m answer data =>
    exact .going ((k.remember m).pass (by simp [Call.chosen?, data]) rfl)
  | @stop m answer =>
    exact .done ((k.remember m).pass rfl rfl)
      (.inr ⟨_, List.mem_append_right ts List.mem_cons_self, rfl⟩)

theorem Turns.balanced {call : Option (Call σ ι τ δ)} (h : Turns g limit p f call st)
    (k : Accounted o limit ts p f.toList early late) :
    Balanced limit
      (ts ++ call.toList.map (⟨·, (p.tour limit f : Tour M A o δ).load < st.load⟩)) st := by
  have head {v : Visit σ ι τ δ} {rest : Frontier (Visit σ ι τ δ)} (pop : f.pop? = some (v, rest)) :
      f.toList = v :: rest.toList := Frontier.toList_of_pop?_eq_some pop
  -- A visit under way is not to be started, wherever its walk stands.
  have onward {v u : Visit σ ι τ δ} {rest : Frontier (Visit σ ι τ δ)} {y : ι × τ}
      (pop : f.pop? = some (v, rest)) (begun : v.started = true)
      (next : v.next M = (some y, u)) :
      u.started = true ∧ unstarted f.toList = unstarted rest.toList := by
    rw [head pop, unstarted_cons_of_started begun]
    exact ⟨(Visit.next_of_some next).2.2.2.1.trans begun, rfl⟩
  cases h with
  | finish pop =>
    rw [Option.toList_none, List.map_nil, List.append_nil]
    exact .done k (.inl (Frontier.pop?_eq_none_iff.1 pop))
  | @leave v u rest pop begun next =>
    rw [Option.toList_none, List.map_nil, List.append_nil]
    refine .going (k.carry ?_)
    rw [head pop, unstarted_cons_of_started begun]
  | @accept v rest m pop fresh answer =>
    refine .going ((k.remember m).begin rfl rfl ?_)
    rw [head pop, unstarted_cons_of_fresh fresh]
    exact congrArg _ (unstarted_cons_of_started rfl).symm
  | @decline v rest m pop fresh answer =>
    refine .going ((k.remember m).begin rfl rfl ?_)
    rw [head pop, unstarted_cons_of_fresh fresh]
  | @honour v u rest i x data m pop begun next answer free =>
    obtain ⟨begun', same⟩ := onward pop begun next
    have waiting : unstarted (u :: rest.toList) = unstarted f.toList :=
      (unstarted_cons_of_started begun').trans same.symm
    have placed := Frontier.toList_push (o := o) (.planned A data (M.successor x)) (rest.pushFront u)
    have enters := unstarted_place o A (M.successor x) data (u :: rest.toList)
    rw [waiting, ← Frontier.toList_pushFront, ← placed] at enters
    have taken := decide_eq_true (load_lt_push (M := M) (A := A) (o := o) limit p
      (p.remember m).honour pop u (.planned A data (M.successor x)))
    exact .going ((k.remember m).honour free rfl taken rfl enters.1 enters.2)
  | @drop v u rest i x data m pop begun next answer full =>
    obtain ⟨begun', same⟩ := onward pop begun next
    have even : ¬ (p.tour limit f : Tour M A o δ).load <
        (rest.pushFront u).toList.length := by
      change ¬ f.toList.length < _
      rw [head pop]
      exact Nat.lt_irrefl _
    refine .going (((k.remember m).drop full rfl (decide_eq_false even) rfl).carry ?_)
    rw [same]
    exact unstarted_cons_of_started begun'
  | @pass v u rest i x d m pop begun next answer data onward' =>
    obtain ⟨begun', same⟩ := onward pop begun next
    refine .going (((k.remember m).pass (by simp [Call.chosen?, data]) rfl).carry ?_)
    rw [same]
    cases d with
    | explore data' => cases data
    | ignore => exact unstarted_cons_of_started begun'
    | skipLetter => exact unstarted_cons_of_started begun'
    | skipState => rfl
    | stop => rfl
  | @stop v u rest i x m pop begun next answer =>
    exact .done ((k.remember m).pass rfl rfl)
      (.inr ⟨_, List.mem_append_right ts List.mem_cons_self, rfl⟩)

theorem balanced_welcome (g : Guide σ ι τ δ ν) (states : List σ)
    (k : Accounted o limit ts p f.toList early late) :
    Balanced limit (ts ++ greetings g states (p.tour limit f : Tour M A o δ) p.memory)
      (welcome g states (p.tour limit f : Tour M A o δ) p.memory) := by
  induction states generalizing ts p f early late with
  | nil =>
    rw [greetings, List.append_nil]
    exact .going k
  | cons s rest ih =>
    have first := (greets (M := M) (A := A) (o := o) g limit p f s).balanced k
    rw [welcome_cons, greetings, List.append_cons]
    generalize welcome g [s] (p.tour limit f : Tour M A o δ) p.memory = st at first ⊢
    cases first with
    | going k => exact ih k
    | done k ended =>
      rw [List.append_nil]
      exact .done k ended

theorem Balanced.after (g : Guide σ ι τ δ ν) (n : Nat) (b : Balanced limit ts st) :
    Balanced limit (ts ++ turns g n st) (Tour.after g n st) := by
  induction n generalizing ts st with
  | zero =>
    rw [turns, List.append_nil]
    exact b
  | succ n ih =>
    cases b with
    | @going p f early late k =>
      have next := ih ((turns_step (M := M) (A := A) (o := o) g limit p f).balanced k)
      rw [List.append_assoc] at next
      exact next
    | done k ended =>
      rw [turns, List.append_nil]
      exact .done k ended

theorem balanced_history (g : Guide σ ι τ δ ν) (M : TransitionSystem σ ι τ) (A : List ι)
    (o : Order) (limit : Option Nat) (m : ν) (n : Nat) :
    Balanced limit (history g M A o limit m n)
      (Tour.after g n (welcome g M.initial (⟨.empty, limit, true⟩ : Tour M A o δ) m)) := by
  have greeted := balanced_welcome (f := .empty) (M := M) (A := A) g M.initial (.start o limit m)
  rw [Progress.tour_start] at greeted
  exact greeted.after g n

end Calls

namespace Accounted

variable {limit : Option Nat} {ts : List (Turn σ ι τ δ)} {p : Progress ν}
  {vs : List (Visit σ ι τ δ)} {early late : List (σ × δ)}

theorem honoured_eq (k : Accounted o limit ts p vs early late) : honoured ts = early := by
  simp [honoured, k.choices, List.filter_map, Function.comp_def]

theorem length_choices (k : Accounted o limit ts p vs early late) :
    (Tour.choices ts).length = p.honoured + late.length := by
  rw [k.choices, k.count, List.length_append, List.length_map, List.length_map]

theorem complete_iff (k : Accounted o limit ts p vs early late) :
    p.complete = true ↔ ∀ n ∈ limit, (Tour.choices ts).length ≤ n := by
  rw [k.complete, k.length_choices]
  constructor
  · rintro rfl n hn
    exact k.within n hn
  · intro h
    rcases k.full with undropped | reached
    · exact undropped
    · have le := h p.honoured reached
      exact List.length_eq_zero_iff.1 (by omega)

/-- A choice is honoured if fewer than the limit came before it. -/
theorem honoured_iff (k : Accounted o limit ts p vs early late) {i : Nat} {c : (σ × δ) × Bool}
    (h : (Tour.choices ts)[i]? = some c) : c.2 = true ↔ ∀ n ∈ limit, i < n := by
  rw [k.choices] at h
  rcases Nat.lt_or_ge i early.length with before | behind
  · rw [List.getElem?_append_left (by simpa using before), List.getElem?_map] at h
    obtain ⟨a, -, rfl⟩ := Option.map_eq_some_iff.1 h
    refine ⟨fun _ n hn => ?_, fun _ => rfl⟩
    have within := k.within n hn
    have count := k.count
    omega
  · rw [List.getElem?_append_right (by simpa using behind), List.getElem?_map] at h
    obtain ⟨a, ha, rfl⟩ := Option.map_eq_some_iff.1 h
    have reached : limit = some p.honoured := by
      refine k.full.resolve_left ?_
      rintro rfl
      cases ha
    refine ⟨nofun, fun all => ?_⟩
    have lt := all p.honoured reached
    have count := k.count
    omega

theorem length_early (k : Accounted o limit ts p vs early late) :
    early.length = limit.elim (Tour.choices ts).length (min · (Tour.choices ts).length) := by
  have all := k.length_choices
  have count := k.count
  cases limit with
  | none =>
    have undropped : late = [] := k.full.resolve_right nofun
    rw [undropped, List.length_nil] at all
    exact count.symm.trans all.symm
  | some n =>
    have within := k.within n rfl
    change early.length = min n _
    rcases k.full with undropped | reached
    · rw [undropped, List.length_nil] at all
      omega
    · obtain rfl := Option.some.inj reached
      omega

end Accounted

/-- Whenever a tour ends, its choices to explore have been honoured up to the limit, and the
states begun are states taken on, each once: all of them unless the guide stopped the tour, and
breadth-first in the order in which they were chosen. -/
theorem explore_accounts {g : Guide σ ι τ δ ν} {limit : Option Nat} {m : ν} {n : Nat}
    {r : Outcome (ν × Array (Call σ ι τ δ))}
    (h : explore g.logged M A o limit (m, #[]) n = some r) :
    let ts := history g.logged M A o limit (m, #[]) n
    ts.map Turn.call = r.memory.2.toList ∧
      (r.complete = true ↔ ∀ k ∈ limit, (choices ts).length ≤ k) ∧
      (∀ i c, (choices ts)[i]? = some c → (c.2 = true ↔ ∀ k ∈ limit, i < k)) ∧
      (honoured ts).length = limit.elim (choices ts).length (min · (choices ts).length) ∧
      (begun ts).Subperm (honoured ts) ∧
      ((∀ c ∈ r.memory.2.toList, ¬ c.Stops) →
        (begun ts).Perm (honoured ts) ∧ (begun ts).length = (honoured ts).length) ∧
      (o = .breadthFirst → begun ts <+: honoured ts) := by
  intro ts
  have ended := explore_eq_some_iff.1 h
  have calls : ts.map Turn.call = r.memory.2.toList := by
    rw [← calls_history, ended]
    rfl
  have balanced := balanced_history g.logged M A o limit (m, #[]) n
  rw [stage] at ended
  generalize Tour.after g.logged n _ = st at ended balanced
  cases balanced with
  | going k => cases ended
  | @done p vs early late k idle =>
    obtain rfl : p.outcome = r := Stage.ended.inj ended
    rw [k.honoured_eq]
    refine ⟨calls, k.complete_iff, fun i c => k.honoured_iff, k.length_early, ?_, ?_, ?_⟩
    · exact (List.sublist_append_left _ _).subperm.trans k.balance.subperm
    · intro unstopped
      have empty : vs = [] := by
        refine idle.resolve_right ?_
        rintro ⟨t, ht, stops⟩
        exact unstopped t.call (calls ▸ List.mem_map_of_mem ht) stops
      have all : (begun ts).Perm early := by simpa [empty, unstarted] using k.balance
      exact ⟨all, all.length_eq⟩
    · intro wide
      exact ⟨_, k.order wide⟩

/-- A guide that chooses whatever it is offered. -/
def eager : Guide σ ι τ Unit Unit where
  onInitial _ _ := (.explore (), ())
  onTransition _ _ _ _ _ _ := (.explore (), ())

/-- With room for two states the third choice is dropped. -/
theorem explore_accounts_relay :
    let ts := history eager.logged Traversal.relay ['a'] .breadthFirst (some 2) ((), #[]) 8
    explore eager.logged Traversal.relay ['a'] .breadthFirst (some 2) ((), #[]) 8 =
        some ⟨false, (), #[.initial 0 (.explore ()), .initial 3 (.explore ()), .start 0 () true,
          .transition 0 () 'a' 0 1 (.explore ()), .start 3 () true]⟩ ∧
      (choices ts).map (·.2) = [true, true, false] ∧ (begun ts).Perm (honoured ts) := by
  have ended : explore eager.logged Traversal.relay ['a'] .breadthFirst (some 2) ((), #[]) 8 =
      some ⟨false, (), #[.initial 0 (.explore ()), .initial 3 (.explore ()), .start 0 () true,
        .transition 0 () 'a' 0 1 (.explore ()), .start 3 () true]⟩ := rfl
  obtain ⟨-, -, -, -, -, whole, -⟩ := explore_accounts ended
  exact ⟨ended, rfl, (whole (by simp [Call.Stops, Call.decision?])).1⟩

end Exploration.Tour
