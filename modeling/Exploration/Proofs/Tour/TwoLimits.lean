import Exploration.Proofs.Tour.Limit

/-!
# A tour under two limits

A limit tells on a tour when a choice to explore is dropped, and not before. Until then the guide
is asked the same under a larger limit, so it answers the same and remembers the same, whatever it
makes of what it is asked. `Paired` relates the two tours step by step: they stand at the same
progress, or the choice that the smaller limit drops lies behind both.
-/

namespace Exploration.Tour

variable {σ ι τ δ ν : Type} {M : TransitionSystem σ ι τ} {A : List ι} {o : Order}

/-- How many of the calls are answered with the choice to explore. -/
def explores (cs : List (Call σ ι τ δ)) : Nat := cs.countP (·.chosen?.isSome)

section Explores

variable {cs ds : List (Call σ ι τ δ)} {c : Call σ ι τ δ}

theorem explores_le (h : cs <+: ds) : explores cs ≤ explores ds := h.sublist.countP_le

theorem explores_append (cs ds : List (Call σ ι τ δ)) :
    explores (cs ++ ds) = explores cs + explores ds := List.countP_append

theorem explores_singleton (c : Call σ ι τ δ) :
    explores [c] = if c.chosen?.isSome then 1 else 0 := List.countP_singleton

/-- What is a prefix of one list is a prefix of the other if they agree for longer. -/
theorem snoc_prefix_iff {k : Nat} {all bll : List (Call σ ι τ δ)} (left : ds <+: all)
    (right : ds <+: bll) (many : k < explores ds) (few : explores cs ≤ k) :
    cs ++ [c] <+: all ↔ cs ++ [c] <+: bll := by
  have within {l : List (Call σ ι τ δ)} (hd : ds <+: l) (hc : cs ++ [c] <+: l) :
      cs ++ [c] <+: ds := by
    rcases List.prefix_or_prefix_of_prefix hc hd with shorter | longer
    · exact shorter
    · rcases List.prefix_concat_iff.1 longer with same | shorter
      · exact same ▸ List.prefix_refl _
      · have le := explores_le shorter
        omega
  constructor
  · intro hc
    exact (within left hc).trans right
  · intro hc
    exact (within right hc).trans left

end Explores

/-- The tours of one guide under the limits `k` and `limit`, when they have come to the statuses
`a` and `b`. -/
inductive Paired (k : Nat) (limit : Option Nat) :
    Status M A o δ (ν × Array (Call σ ι τ δ)) → Status M A o δ (ν × Array (Call σ ι τ δ)) → Prop
  | level {p : Progress (ν × Array (Call σ ι τ δ))} {f : Frontier (Visit σ ι τ δ)}
      (whole : p.complete = true) (count : explores p.memory.2.toList = p.honoured)
      (few : p.honoured ≤ k) : Paired k limit (p.going (some k) f) (p.going limit f)
  | ended {r : Outcome (ν × Array (Call σ ι τ δ))} (whole : r.complete = true)
      (few : explores r.memory.2.toList ≤ k) : Paired k limit (.done r) (.done r)
  | parted {a b : Status M A o δ (ν × Array (Call σ ι τ δ))} {cs : List (Call σ ι τ δ)}
      (left : cs <+: a.calls) (right : cs <+: b.calls) (many : k < explores cs) :
      Paired k limit a b

section Steps

variable {g : Guide σ ι τ δ ν} {k : Nat} {limit : Option Nat}
  {p : Progress (ν × Array (Call σ ι τ δ))} {f : Frontier (Visit σ ι τ δ)}
  {a b st : Status M A o δ (ν × Array (Call σ ι τ δ))}

/-- The larger limit honours what the smaller one honours. -/
theorem honours_mono (wide : ∀ l ∈ limit, k ≤ l) (free : p.honours (some k) = true) :
    p.honours limit = true := by
  have room : p.honoured < k := by simpa [Progress.honours] using free
  cases limit with
  | none => rfl
  | some l =>
    have le := wide l rfl
    have more : p.honoured < l := by omega
    simpa [Progress.honours] using more

/-- The limit has no influence on what is asked. -/
theorem Greets.other_limit {l : Option Nat} {s : σ} {d : Decision δ}
    (h : Greets g.logged l p f s d st) (limit : Option Nat) :
    ∃ st', Greets (M := M) (A := A) (o := o) g.logged limit p f s d st' := by
  cases h with
  | honour answer free =>
    by_cases free' : p.honours limit = true
    · exact ⟨_, .honour answer free'⟩
    · exact ⟨_, .drop answer free'⟩
  | drop answer full =>
    by_cases free' : p.honours limit = true
    · exact ⟨_, .honour answer free'⟩
    · exact ⟨_, .drop answer free'⟩
  | pass answer data onward => exact ⟨_, .pass answer data onward⟩
  | stop answer => exact ⟨_, .stop answer⟩

theorem Turns.other_limit {l : Option Nat} {call : Option (Call σ ι τ δ)}
    (h : Turns g.logged l p f call st) (limit : Option Nat) :
    ∃ st', Turns (M := M) (A := A) (o := o) g.logged limit p f call st' := by
  cases h with
  | finish pop => exact ⟨_, .finish pop⟩
  | leave pop begun next => exact ⟨_, .leave pop begun next⟩
  | accept pop fresh answer => exact ⟨_, .accept pop fresh answer⟩
  | decline pop fresh answer => exact ⟨_, .decline pop fresh answer⟩
  | honour pop begun next answer free =>
    by_cases free' : p.honours limit = true
    · exact ⟨_, .honour pop begun next answer free'⟩
    · exact ⟨_, .drop pop begun next answer free'⟩
  | drop pop begun next answer full =>
    by_cases free' : p.honours limit = true
    · exact ⟨_, .honour pop begun next answer free'⟩
    · exact ⟨_, .drop pop begun next answer free'⟩
  | pass pop begun next answer data onward => exact ⟨_, .pass pop begun next answer data onward⟩
  | stop pop begun next answer => exact ⟨_, .stop pop begun next answer⟩

/-- The smaller limit is reached when it honours no more. -/
theorem honoured_eq_of_full (few : p.honoured ≤ k) (full : ¬ p.honours (some k) = true) :
    p.honoured = k := by
  have reached : ¬ p.honoured < k := by simpa [Progress.honours] using full
  omega

theorem Greets.paired (wide : ∀ l ∈ limit, k ≤ l) {s : σ} {d : Decision δ}
    (h : Greets g.logged (some k) p f s d st) (whole : p.complete = true)
    (count : explores p.memory.2.toList = p.honoured) (few : p.honoured ≤ k) :
    Paired k limit st (welcome g.logged [s] (p.tour limit f) p.memory) := by
  let call : Call σ ι τ δ := .initial s d
  have calls : st.calls = p.memory.2.toList ++ [call] := h.calls
  have counted : explores st.calls = p.honoured + explores [call] := by
    rw [calls, explores_append, count]
  cases h with
  | honour answer free =>
    have room : p.honoured < k := by simpa [Progress.honours] using free
    rw [(Greets.honour answer (honours_mono wide free)).status_eq]
    exact .level whole counted room
  | drop answer full =>
    obtain ⟨st', other⟩ := (Greets.drop (M := M) (A := A) (o := o) answer full).other_limit limit
    have reached := honoured_eq_of_full few full
    rw [other.status_eq]
    refine .parted (List.prefix_refl _) (other.calls ▸ calls ▸ List.prefix_refl _) ?_
    rw [counted, explores_singleton, reached]
    exact Nat.lt_succ_self k
  | @pass d m answer data onward =>
    have silent : explores [call] = 0 := by simp [explores_singleton, call, Call.chosen?, data]
    rw [silent] at counted
    rw [(Greets.pass answer data onward).status_eq]
    exact .level whole counted few
  | stop answer =>
    rw [(Greets.stop answer).status_eq]
    refine .ended whole ?_
    exact Nat.le_trans (Nat.le_of_eq counted) few

theorem Turns.paired (wide : ∀ l ∈ limit, k ≤ l) {call : Option (Call σ ι τ δ)}
    (h : Turns g.logged (some k) p f call st) (whole : p.complete = true)
    (count : explores p.memory.2.toList = p.honoured) (few : p.honoured ≤ k) :
    Paired k limit st ((p.tour limit f).step g.logged p.memory) := by
  have calls := h.calls
  have counted : explores st.calls = p.honoured + explores call.toList := by
    rw [calls, explores_append, count]
  cases h with
  | finish pop =>
    rw [(Turns.finish pop).status_eq]
    exact .ended whole (Nat.le_trans (Nat.le_of_eq count) few)
  | leave pop begun next =>
    rw [(Turns.leave pop begun next).status_eq]
    exact .level whole count few
  | accept pop fresh answer =>
    rw [(Turns.accept pop fresh answer).status_eq]
    exact .level whole counted few
  | decline pop fresh answer =>
    rw [(Turns.decline pop fresh answer).status_eq]
    exact .level whole counted few
  | honour pop begun next answer free =>
    have room : p.honoured < k := by simpa [Progress.honours] using free
    rw [(Turns.honour pop begun next answer (honours_mono wide free)).status_eq]
    exact .level whole counted room
  | drop pop begun next answer full =>
    obtain ⟨st', other⟩ :=
      (Turns.drop (M := M) (A := A) (o := o) pop begun next answer full).other_limit limit
    have reached := honoured_eq_of_full few full
    rw [other.status_eq]
    refine .parted (List.prefix_refl _) (other.calls ▸ calls ▸ List.prefix_refl _) ?_
    rw [counted, Option.toList_some, explores_singleton, reached]
    exact Nat.lt_succ_self k
  | @pass v u rest i x d m pop begun next answer data onward =>
    have silent : explores
        [(.transition v.state v.label i x (M.successor x) d : Call σ ι τ δ)] = 0 := by
      simp [explores_singleton, Call.chosen?, data]
    rw [Option.toList_some, silent] at counted
    rw [(Turns.pass pop begun next answer data onward).status_eq]
    exact .level whole counted few
  | stop pop begun next answer =>
    rw [(Turns.stop pop begun next answer).status_eq]
    refine .ended whole ?_
    exact Nat.le_trans (Nat.le_of_eq counted) few

/-- What is parted stays parted. -/
theorem Paired.after (wide : ∀ l ∈ limit, k ≤ l) (n : Nat) (h : Paired k limit a b) :
    Paired k limit (after g.logged n a) (after g.logged n b) := by
  induction n generalizing a b with
  | zero => exact h
  | succ n ih =>
    cases h with
    | @level p f whole count few =>
      exact ih ((turns_step g.logged (some k) p f).paired wide whole count few)
    | ended whole few => exact .ended whole few
    | parted left right many =>
      exact .parted ((keeps_logged g _).after (n + 1) left)
        ((keeps_logged g _).after (n + 1) right) many

theorem paired_welcome (wide : ∀ l ∈ limit, k ≤ l) (states : List σ) (whole : p.complete = true)
    (count : explores p.memory.2.toList = p.honoured) (few : p.honoured ≤ k) :
    Paired k limit (welcome g.logged states (p.tour (some k) f : Tour M A o δ) p.memory)
      (welcome g.logged states (p.tour limit f) p.memory) := by
  induction states generalizing p f with
  | nil => exact .level whole count few
  | cons s rest ih =>
    have first := (greets (M := M) (A := A) (o := o) g.logged (some k) p f s).paired
      wide whole count few
    rw [welcome_cons, welcome_cons (t := p.tour limit f)]
    generalize welcome g.logged [s] (p.tour (some k) f : Tour M A o δ) p.memory = a at first ⊢
    generalize welcome g.logged [s] (p.tour limit f : Tour M A o δ) p.memory = b at first ⊢
    cases first with
    | level whole count few => exact ih whole count few
    | ended whole few => exact .ended whole few
    | parted left right many =>
      have more (t : Tour M A o δ) (m : ν × Array (Call σ ι τ δ)) :
          m.2.toList <+: (welcome g.logged rest t m).calls := by
        rw [calls_welcome]
        exact List.prefix_append _ _
      refine .parted ?_ ?_ many
      · cases a with
        | going t m => exact left.trans (more t m)
        | done r => exact left
      · cases b with
        | going t m => exact right.trans (more t m)
        | done r => exact right

theorem Paired.calls_iff (h : Paired k limit a b) {cs : List (Call σ ι τ δ)} (c : Call σ ι τ δ)
    (few : explores cs ≤ k) : cs ++ [c] <+: a.calls ↔ cs ++ [c] <+: b.calls := by
  cases h with
  | level => rfl
  | ended => rfl
  | parted left right many => exact snoc_prefix_iff left right many few

/-- Without a choice beyond the smaller limit the tours are the same. -/
theorem Paired.stage_eq (h : Paired k limit a b)
    (few : explores a.calls ≤ k ∨ explores b.calls ≤ k) :
    a.stage = b.stage ∧ ∀ r, a.stage = .ended r → r.complete = true := by
  cases h with
  | level => exact ⟨rfl, nofun⟩
  | ended whole =>
    refine ⟨rfl, fun r same => ?_⟩
    rw [← Stage.ended.inj same]
    exact whole
  | parted left right many =>
    have le_left := explores_le left
    have le_right := explores_le right
    omega

end Steps

/-- The tours under the limits `k` and `limit` after the same number of steps. -/
theorem paired_stage {k : Nat} {limit : Option Nat} (wide : ∀ l ∈ limit, k ≤ l)
    (g : Guide σ ι τ δ ν) (M : TransitionSystem σ ι τ) (A : List ι) (o : Order) (m : ν) (n : Nat) :
    Paired k limit
      (after g.logged n
        (welcome g.logged M.initial (⟨.empty, some k, true⟩ : Tour M A o δ) (m, #[])))
      (after g.logged n
        (welcome g.logged M.initial (⟨.empty, limit, true⟩ : Tour M A o δ) (m, #[]))) := by
  have greeted := paired_welcome (M := M) (A := A) (o := o) (g := g) (f := .empty) wide M.initial
    (p := .start (m, #[])) rfl rfl (Nat.zero_le k)
  rw [Progress.tour_start, Progress.tour_start] at greeted
  exact greeted.after wide n

/-- A tour under the limit `k` makes the same calls, with the same arguments and answers, as under
a larger limit or none, up to the call that is answered with the choice to explore that comes
after `k` others. If there is no such call in one of the two, they are the same to their end, and
complete. The tours are followed to their stages `X n` and `Y n`, the last of which are their
outcomes. -/
theorem explore_two_limits {k : Nat} {limit : Option Nat} (wide : ∀ l ∈ limit, k ≤ l)
    (g : Guide σ ι τ δ ν) (M : TransitionSystem σ ι τ) (A : List ι) (o : Order) (m : ν) :
    let X := stage g.logged M A o (some k) (m, #[])
    let Y := stage g.logged M A o limit (m, #[])
    (∀ n r, explore g.logged M A o (some k) (m, #[]) n = some r ↔ X n = .ended r) ∧
    (∀ n r, explore g.logged M A o limit (m, #[]) n = some r ↔ Y n = .ended r) ∧
    (∀ n cs c, explores cs ≤ k → (cs ++ [c] <+: (X n).calls ↔ cs ++ [c] <+: (Y n).calls)) ∧
    ((∀ n, explores (X n).calls ≤ k) ∨ (∀ n, explores (Y n).calls ≤ k) →
      (∀ n, X n = Y n) ∧
      ∃ n r, X n = .ended r ∧ explore g.logged M A o (some k) (m, #[]) n = some r ∧
        explore g.logged M A o limit (m, #[]) n = some r ∧
        explore g M A o (some k) m n = some r.unlogged ∧
        explore g M A o limit m n = some r.unlogged ∧ r.complete = true) := by
  intro X Y
  have paired := paired_stage wide g M A o m
  refine ⟨fun _ _ => explore_eq_some_iff, fun _ _ => explore_eq_some_iff, ?_, ?_⟩
  · intro n cs c few
    exact (paired n).calls_iff c few
  · intro few
    have few_at (n : Nat) : explores (X n).calls ≤ k ∨ explores (Y n).calls ≤ k :=
      few.imp (· n) (· n)
    have same (n : Nat) : X n = Y n := ((paired n).stage_eq (few_at n)).1
    obtain ⟨n, r, ended, plain, -⟩ := explore_within_limit g M A o k m
    have endedX : X n = .ended r := explore_eq_some_iff.1 ended
    have endedY : explore g.logged M A o limit (m, #[]) n = some r :=
      explore_eq_some_iff.2 ((same n).symm.trans endedX)
    have plainY : explore g M A o limit m n = some r.unlogged := by
      have both := explore_unlogged g M A o limit (m, #[]) n
      rw [endedY] at both
      exact both
    exact ⟨same, n, r, endedX, ended, endedY, plain, plainY,
      ((paired n).stage_eq (few_at n)).2 r endedX⟩

/-- With room for three states nothing is dropped, so a larger limit makes no difference. -/
theorem explore_two_limits_relay :
    let X := stage eager.logged Traversal.relay ['a'] .breadthFirst (some 3) ((), #[])
    (∀ l ∈ some 5, 3 ≤ l) ∧ (∀ n, explores (X n).calls ≤ 3) ∧
      ∃ n r, explore eager Traversal.relay ['a'] .breadthFirst (some 5) () n = some r ∧
        r.complete = true := by
  intro X
  have wide : ∀ l ∈ some 5, 3 ≤ l := by simp
  have few (n : Nat) : explores (X n).calls ≤ 3 := by
    have grows : Stage.Grows X := grows_stage _ _ _ _ _ _
    have last : X 10 = .ended ⟨true, (), #[.initial 0 (.explore ()), .initial 3 (.explore ()),
        .start 0 () true, .transition 0 () 'a' 0 1 (.explore ()), .start 3 () true,
        .start 1 () true]⟩ := rfl
    rcases Nat.le_total n 10 with le | le
    · refine Nat.le_trans (explores_le (grows.calls le)) ?_
      rw [last]
      decide
    · rw [grows.ended le last]
      decide
  obtain ⟨-, -, -, same⟩ := explore_two_limits wide eager Traversal.relay ['a'] .breadthFirst ()
  obtain ⟨-, n, r, -, -, -, -, ended, whole⟩ := same (.inl few)
  exact ⟨wide, few, n, r.unlogged, ended, whole⟩

end Exploration.Tour
