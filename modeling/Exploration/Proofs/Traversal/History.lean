import Exploration.Proofs.Traversal.Advance

/-!
# Histories of a traversal

The consumer of a traversal may ask for the next event, schedule a state, skip, and change data,
in any order. `play` makes a list of such moves and keeps the reports. Every move does one of the
few things that `Moves` lists, and `Reached` collects the histories they give, so what holds after
every history is proved once by induction on `Reached`.
-/

namespace Exploration

variable {σ ι τ δ : Type}

/-- A list that is longer by one is split before its last entry or at it. -/
theorem snoc_eq_append_cons_iff {α : Type} {l before after : List α} {a b : α} :
    l ++ [a] = before ++ b :: after ↔
      l = before ∧ a = b ∧ after = [] ∨
        ∃ after', l = before ++ b :: after' ∧ after = after' ++ [a] := by
  constructor
  · intro same
    rcases after.eq_nil_or_concat with rfl | ⟨after, c, rfl⟩
    · obtain ⟨rfl, last⟩ := List.append_inj' same rfl
      exact .inl ⟨rfl, List.singleton_inj.1 last, rfl⟩
    · rw [List.concat_eq_append, ← List.cons_append, ← List.append_assoc] at same
      obtain ⟨rfl, last⟩ := List.append_inj' same rfl
      obtain rfl := List.singleton_inj.1 last
      exact .inr ⟨after, rfl, List.concat_eq_append⟩
  · rintro (⟨rfl, rfl, rfl⟩ | ⟨after, rfl, rfl⟩)
    · rfl
    · simp

/-- The record an event is about. -/
def Event.record? : Event σ ι τ → Option RecordIndex
  | .initial _ => none
  | .start r _ => some r
  | .edge r _ _ _ => some r
  | .finish r _ _ => some r

/-- The initial state an event reports. -/
def Event.initial? : Event σ ι τ → Option σ
  | .initial s => some s
  | .start _ _ => none
  | .edge _ _ _ _ => none
  | .finish _ _ _ => none

namespace Traversal

/-- A call of the consumer. -/
inductive Move (σ δ : Type) where
  | next
  | schedule (state : σ) (data : δ)
  | skipLetter
  | skipState
  | modifyData (record : RecordIndex) (change : δ → δ)

/-- What came of a call. A skip names the record it hit. -/
inductive Report (σ ι τ : Type) where
  | event (e : Event σ ι τ)
  | ended
  | scheduled (record : RecordIndex)
  | skippedLetter (record : RecordIndex)
  | skippedState (record : RecordIndex)
  | refused
  | modified
  deriving DecidableEq

namespace Report

def event? : Report σ ι τ → Option (Event σ ι τ)
  | .event e => some e
  | .ended => none
  | .scheduled _ => none
  | .skippedLetter _ => none
  | .skippedState _ => none
  | .refused => none
  | .modified => none

/-- The initial state a call gave. -/
def initial? : Report σ ι τ → Option σ
  | .event e => e.initial?
  | .ended => none
  | .scheduled _ => none
  | .skippedLetter _ => none
  | .skippedState _ => none
  | .refused => none
  | .modified => none

/-- The record a call went on with. -/
def target? : Report σ ι τ → Option RecordIndex
  | .event e => e.record?
  | .ended => none
  | .scheduled _ => none
  | .skippedLetter r => some r
  | .skippedState r => some r
  | .refused => none
  | .modified => none

end Report

/-- The events of a history. -/
def events (h : List (Report σ ι τ)) : List (Event σ ι τ) := h.filterMap Report.event?

theorem events_snoc (h : List (Report σ ι τ)) (x : Report σ ι τ) :
    events (h ++ [x]) = events h ++ x.event?.toList := by
  cases x <;> simp [events, Report.event?]

/-- The initial states reported. -/
def initials (h : List (Report σ ι τ)) : List σ := h.filterMap Report.initial?

theorem initials_snoc (h : List (Report σ ι τ)) (x : Report σ ι τ) :
    initials (h ++ [x]) = initials h ++ x.initial?.toList := by
  cases hx : x.initial? <;> simp [initials, hx]

variable {M : TransitionSystem σ ι τ} {A : List ι} {o : Order}

theorem pending_schedule (t : Traversal M A o δ) (s : σ) (d : δ) :
    (t.schedule s d).pending = o.place (.planned A t.recordCount s) t.pending :=
  Frontier.toList_push _ _

/-- The records of the pending visits, head first, with whether they were started. -/
def outline (t : Traversal M A o δ) : List (RecordIndex × Bool) :=
  t.pending.map fun v => (v.label, v.started)

theorem outline_of_cons {t : Traversal M A o δ} {v : Visit σ ι τ RecordIndex}
    {rest : List (Visit σ ι τ RecordIndex)} (head : t.pending = v :: rest) :
    t.outline = (v.label, v.started) :: rest.map fun a => (a.label, a.started) := by
  rw [outline, head]
  rfl

theorem outline_congr {t u : Traversal M A o δ} (h : u.pending = t.pending) :
    u.outline = t.outline := by
  rw [outline, h, outline]

/-- A step of the head that neither starts nor ends it. -/
theorem outline_of_step {t u : Traversal M A o δ} {v a : Visit σ ι τ RecordIndex}
    {rest : List (Visit σ ι τ RecordIndex)} (head : t.pending = v :: rest)
    (after : u.pending = a :: rest) (label : a.label = v.label) (started : a.started = v.started) :
    u.outline = t.outline := by
  rw [outline_of_cons head, outline_of_cons after, label, started]

theorem recordCount_of_records {t u : Traversal M A o δ} (h : u.records = t.records) :
    u.recordCount = t.recordCount :=
  congrArg Array.size h

theorem recordCount_modifyData (t : Traversal M A o δ) (r : RecordIndex) (change : δ → δ) :
    (t.modifyData r change).recordCount = t.recordCount :=
  Array.size_modify

/-- What a call does, by what it reports. -/
inductive Moves (t : Traversal M A o δ) : Report σ ι τ → Traversal M A o δ → Prop
  | event {e : Event σ ι τ} {u : Traversal M A o δ} (advance : t.Advances e u) :
      Moves t (.event e) u
  | ended (unread : t.unread = []) (pending : t.pending = []) : Moves t .ended t
  | scheduled (s : σ) (d : δ) : Moves t (.scheduled t.recordCount) (t.schedule s d)
  | skippedLetter {v : Visit σ ι τ RecordIndex} {rest : List (Visit σ ι τ RecordIndex)}
      {u : Traversal M A o δ} (head : t.pending = v :: rest) (unread : u.unread = t.unread)
      (records : u.records = t.records) (pending : u.pending = v.skipLetter :: rest) :
      Moves t (.skippedLetter v.label) u
  | skippedState {v : Visit σ ι τ RecordIndex} {rest : List (Visit σ ι τ RecordIndex)}
      {u : Traversal M A o δ} (head : t.pending = v :: rest) (unread : u.unread = t.unread)
      (records : u.records = t.records) (pending : u.pending = o.giveUp v rest) :
      Moves t (.skippedState v.label) u
  | refused (pending : t.pending = []) : Moves t .refused t
  | modified (r : RecordIndex) (change : δ → δ) : Moves t .modified (t.modifyData r change)

/-- The history `h` can lead to the traversal `t`. -/
inductive Reached (M : TransitionSystem σ ι τ) (A : List ι) (o : Order) :
    List (Report σ ι τ) → Traversal M A o δ → Prop
  | begin : Reached M A o [] (begin M A o δ)
  | move {h : List (Report σ ι τ)} {t u : Traversal M A o δ} {x : Report σ ι τ}
      (before : Reached M A o h t) (last : t.Moves x u) : Reached M A o (h ++ [x]) u

/-- A report in the middle of a history came of one call, made where the reports before it led. -/
theorem Reached.split {h : List (Report σ ι τ)} {t : Traversal M A o δ}
    (reached : Reached M A o h t) {before after : List (Report σ ι τ)} {x : Report σ ι τ}
    (hs : h = before ++ x :: after) :
    ∃ u w : Traversal M A o δ, Reached M A o before u ∧ u.Moves x w := by
  induction reached generalizing after with
  | begin => simp at hs
  | @move h t u y prior last ih =>
    rcases snoc_eq_append_cons_iff.1 hs with ⟨rfl, rfl, -⟩ | ⟨after, split, -⟩
    · exact ⟨t, u, prior, last⟩
    · exact ih split

theorem Moves.unread {t u : Traversal M A o δ} {x : Report σ ι τ} (m : t.Moves x u) :
    t.unread = x.initial?.toList ++ u.unread := by
  cases m with
  | event advance =>
    cases advance with
    | initial idle unread => exact unread
    | start ready head fresh unread => exact unread.symm
    | edge ready head begun step unread => exact unread.symm
    | finish ready head begun step unread => exact unread.symm
  | ended => rfl
  | scheduled => rfl
  | skippedLetter head unread => exact unread.symm
  | skippedState head unread => exact unread.symm
  | refused => rfl
  | modified => rfl

/-- The initial states reported so far and those left are all of them. -/
theorem Reached.initials_append_unread {h : List (Report σ ι τ)} {t : Traversal M A o δ}
    (reached : Reached M A o h t) : initials h ++ t.unread = M.initial := by
  induction reached with
  | begin => rfl
  | move before last ih => rw [initials_snoc, List.append_assoc, ← last.unread, ih]

theorem Moves.recordCount {t u : Traversal M A o δ} {x : Report σ ι τ} (m : t.Moves x u) :
    x = .scheduled t.recordCount ∧ u.recordCount = t.recordCount + 1 ∨
      (∀ r, x ≠ .scheduled r) ∧ u.recordCount = t.recordCount := by
  cases m with
  | event advance =>
    refine .inr ⟨by simp, ?_⟩
    cases advance with
    | initial idle unread records => exact recordCount_of_records records
    | start ready head fresh unread records => exact recordCount_of_records records
    | edge ready head begun step unread records => exact recordCount_of_records records
    | finish ready head begun step unread records => exact recordCount_of_records records
  | ended => exact .inr ⟨by simp, rfl⟩
  | scheduled s d => exact .inl ⟨rfl, t.recordCount_schedule s d⟩
  | skippedLetter head unread records =>
    exact .inr ⟨by simp, recordCount_of_records records⟩
  | skippedState head unread records =>
    exact .inr ⟨by simp, recordCount_of_records records⟩
  | refused => exact .inr ⟨by simp, rfl⟩
  | modified r change => exact .inr ⟨by simp, t.recordCount_modifyData r change⟩

/-- Records are numbered in the order of scheduling, with no gap. -/
theorem Reached.scheduled_iff {h : List (Report σ ι τ)} {t : Traversal M A o δ}
    (reached : Reached M A o h t) (r : RecordIndex) : .scheduled r ∈ h ↔ r < t.recordCount := by
  induction reached with
  | begin => simp [Traversal.begin, Traversal.recordCount]
  | move before last ih =>
    rw [List.mem_append, ih, List.mem_singleton]
    rcases last.recordCount with ⟨rfl, count⟩ | ⟨other, count⟩
    · rw [count, Report.scheduled.injEq]
      exact Nat.lt_succ_iff_lt_or_eq.symm
    · rw [count]
      simp [(other r).symm]

/-- A call goes on with the head of the frontier. -/
theorem Moves.head_of_target {t u : Traversal M A o δ} {x : Report σ ι τ} (m : t.Moves x u)
    {r : RecordIndex} (hx : x.target? = some r) :
    ∃ v rest, t.pending = v :: rest ∧ v.label = r := by
  cases m with
  | event advance =>
    cases advance with
    | initial => cases hx
    | start ready head => exact ⟨_, _, head, Option.some.inj hx⟩
    | edge ready head => exact ⟨_, _, head, Option.some.inj hx⟩
    | finish ready head => exact ⟨_, _, head, Option.some.inj hx⟩
  | ended => cases hx
  | scheduled => cases hx
  | skippedLetter head => exact ⟨_, _, head, Option.some.inj hx⟩
  | skippedState head => exact ⟨_, _, head, Option.some.inj hx⟩
  | refused => cases hx
  | modified => cases hx

/-- The first event of a visit is its start. -/
theorem Advances.isStart_iff {t u : Traversal M A o δ} {e : Event σ ι τ} (adv : t.Advances e u)
    {v : Visit σ ι τ RecordIndex} {rest : List (Visit σ ι τ RecordIndex)}
    (head : t.pending = v :: rest) (about : e.record? = some v.label) :
    e.isStart = true ↔ v.started = false := by
  cases adv with
  | initial => cases about
  | start ready head' fresh =>
    obtain ⟨rfl, -⟩ := List.cons.inj (head.symm.trans head')
    simp [Event.isStart, fresh]
  | edge ready head' begun =>
    obtain ⟨rfl, -⟩ := List.cons.inj (head.symm.trans head')
    simp [Event.isStart, begun]
  | finish ready head' begun =>
    obtain ⟨rfl, -⟩ := List.cons.inj (head.symm.trans head')
    simp [Event.isStart, begun]

/-- The record whose visit the next skip would hit. -/
def head? (t : Traversal M A o δ) : Option RecordIndex := t.frontier.head?.map Visit.label

theorem head?_eq (t : Traversal M A o δ) : t.head? = (t.pending.map Visit.label).head? := by
  rw [head?, Frontier.head?_eq, List.head?_map]
  rfl

def perform (t : Traversal M A o δ) : Move σ δ → Report σ ι τ × Traversal M A o δ
  | .next =>
    match t.next with
    | (some e, u) => (.event e, u)
    | (none, u) => (.ended, u)
  | .schedule s d => (.scheduled t.recordCount, t.schedule s d)
  | .skipLetter =>
    match t.head?, t.skipLetter with
    | some r, (.ok _, u) => (.skippedLetter r, u)
    | _, (_, u) => (.refused, u)
  | .skipState =>
    match t.head?, t.skipState with
    | some r, (.ok _, u) => (.skippedState r, u)
    | _, (_, u) => (.refused, u)
  | .modifyData r change => (.modified, t.modifyData r change)

/-- The reports of a list of moves, and the traversal after them. -/
def play (t : Traversal M A o δ) : List (Move σ δ) → List (Report σ ι τ) × Traversal M A o δ
  | [] => ([], t)
  | m :: ms =>
    let p := t.perform m
    let q := p.2.play ms
    (p.1 :: q.1, q.2)

theorem moves_perform (t : Traversal M A o δ) (m : Move σ δ) :
    t.Moves (t.perform m).1 (t.perform m).2 := by
  cases m with
  | next =>
    cases hn : t.next with
    | mk e u =>
      cases e with
      | some e =>
        rw [perform, hn]
        exact .event (advances_of_next hn)
      | none =>
        obtain ⟨unread, pending⟩ := next_eq_none_iff.1 (congrArg Prod.fst hn)
        obtain rfl : u = t := next_of_none hn
        rw [perform, hn]
        exact .ended unread pending
  | schedule s d => exact .scheduled s d
  | skipLetter =>
    cases hp : t.pending with
    | nil =>
      rw [perform, head?_eq, hp, skipLetter_of_nil hp]
      exact .refused hp
    | cons v rest =>
      obtain ⟨u, hu, unread, records, pending⟩ := skipLetter_of_cons hp
      rw [perform, head?_eq, hp, hu]
      exact .skippedLetter hp unread records pending
  | skipState =>
    cases hp : t.pending with
    | nil =>
      rw [perform, head?_eq, hp, skipState_of_nil hp]
      exact .refused hp
    | cons v rest =>
      obtain ⟨u, hu, unread, records, pending⟩ := skipState_of_cons hp
      rw [perform, head?_eq, hp, hu]
      exact .skippedState hp unread records pending
  | modifyData r change => exact .modified r change

/-- Every history is reached. -/
theorem Reached.play {t : Traversal M A o δ} {h : List (Report σ ι τ)}
    (before : Reached M A o h t) (ms : List (Move σ δ)) :
    Reached M A o (h ++ (t.play ms).1) (t.play ms).2 := by
  induction ms generalizing t h with
  | nil => simpa [Traversal.play] using before
  | cons m ms ih =>
    have after := ih (before.move (t.moves_perform m))
    rw [List.append_assoc] at after
    exact after

theorem perform_ne_scheduled (t : Traversal M A o δ) {m : Move σ δ}
    (hm : ∀ s d, m ≠ .schedule s d) (r : RecordIndex) : (t.perform m).1 ≠ .scheduled r := by
  cases m with
  | next =>
    rw [perform]
    split <;> simp
  | schedule s d => exact absurd rfl (hm s d)
  | skipLetter =>
    rw [perform]
    split <;> simp
  | skipState =>
    rw [perform]
    split <;> simp
  | modifyData r change => simp [perform]

/-- Only a call that schedules makes a record. -/
theorem recordCount_perform (t : Traversal M A o δ) {m : Move σ δ}
    (hm : ∀ s d, m ≠ .schedule s d) : (t.perform m).2.recordCount = t.recordCount := by
  rcases (t.moves_perform m).recordCount with ⟨made, -⟩ | ⟨-, same⟩
  · exact absurd made (t.perform_ne_scheduled hm _)
  · exact same

/-- Where nothing is left, a call gives no event and leaves nothing, unless it schedules. -/
theorem Moves.idle {t u : Traversal M A o δ} {x : Report σ ι τ} (m : t.Moves x u)
    (unread : t.unread = []) (pending : t.pending = []) (hx : x ≠ .scheduled t.recordCount) :
    x.event? = none ∧ u.unread = [] ∧ u.pending = [] ∧ u.recordCount = t.recordCount := by
  cases m with
  | event advance => cases advance <;> simp_all
  | ended => exact ⟨rfl, unread, pending, rfl⟩
  | scheduled => exact absurd rfl hx
  | skippedLetter head => simp_all
  | skippedState head => simp_all
  | refused => exact ⟨rfl, unread, pending, rfl⟩
  | modified r change => exact ⟨rfl, unread, pending, t.recordCount_modifyData r change⟩

/-- A traversal with nothing left reports no event until something is scheduled. -/
theorem play_idle {t : Traversal M A o δ} {ms : List (Move σ δ)} (hm : ∀ s d, .schedule s d ∉ ms)
    (unread : t.unread = []) (pending : t.pending = []) :
    events (t.play ms).1 = [] ∧ (t.play ms).2.unread = [] ∧ (t.play ms).2.pending = [] ∧
      (t.play ms).2.recordCount = t.recordCount := by
  induction ms generalizing t with
  | nil => exact ⟨rfl, unread, pending, rfl⟩
  | cons m ms ih =>
    have calm : ∀ s d, m ≠ .schedule s d := fun s d he => hm s d (he ▸ List.mem_cons_self)
    obtain ⟨silent, unread', pending', count⟩ :=
      (t.moves_perform m).idle unread pending (t.perform_ne_scheduled calm _)
    obtain ⟨later, ended⟩ := ih (fun s d he => hm s d (List.mem_cons_of_mem m he)) unread' pending'
    rw [count] at ended
    refine ⟨?_, ended⟩
    rw [Traversal.play, events, List.filterMap_cons_none silent]
    exact later

/-- What is scheduled when nothing is left is started next. -/
theorem next_schedule {t : Traversal M A o δ} (unread : t.unread = []) (pending : t.pending = [])
    (s : σ) (d : δ) : (t.schedule s d).next.1 = some (.start t.recordCount s) := by
  have only : (t.schedule s d).pending = [.planned A t.recordCount s] := by
    rw [pending_schedule, pending]
    cases o <;> rfl
  obtain ⟨e, u, hn, adv⟩ := next_of_cons only
  rw [hn]
  cases adv with
  | initial idle more =>
    rw [unread_schedule, unread] at more
    cases more
  | start ready head =>
    obtain ⟨rfl, -⟩ := List.cons.inj (only.symm.trans head)
    rfl
  | edge ready head begun =>
    obtain ⟨rfl, -⟩ := List.cons.inj (only.symm.trans head)
    cases begun
  | finish ready head begun =>
    obtain ⟨rfl, -⟩ := List.cons.inj (only.symm.trans head)
    cases begun

theorem reached_of_play {ms : List (Move σ δ)} {h : List (Report σ ι τ)} {t : Traversal M A o δ}
    (hp : (begin M A o δ).play ms = (h, t)) : Reached M A o h t := by
  have after := Reached.play (M := M) (A := A) (o := o) (δ := δ) .begin ms
  rw [hp] at after
  exact after

/-- A system of two initial states, one of which leads on. -/
def relay : TransitionSystem Nat Char (Fin 1) := .ofEdges [0, 3] #[(0, 'a', 1)]

end Traversal

end Exploration
