/-!
# Guides

A guide steers a tour: it is asked about every initial state, every state about to be explored
and every transition, and it carries a memory from one question to the next. `logged` makes a
guide remember the questions with its answers, without changing them.
-/

namespace Exploration

inductive Decision (δ : Type) where
  /-- Explore the state, with `data` to be shown again while it is explored. -/
  | explore (data : δ)
  | ignore
  /-- Leave out the remaining transitions of the current letter. -/
  | skipLetter
  /-- Leave out the remaining letters of the current state. -/
  | skipState
  /-- End the tour. -/
  | stop
  deriving DecidableEq

/-- On initial states `skipLetter` and `skipState` mean the same as `ignore`. -/
structure Guide (σ ι τ δ ν : Type) where
  onInitial : ν → σ → Decision δ × ν
  /-- Asked before a state is explored; on `false` its transitions are left out. -/
  onStart : ν → σ → δ → Bool × ν := fun m _ _ => (true, m)
  /-- Asked with the source, its data, the letter, the transition and the successor. -/
  onTransition : ν → σ → δ → ι → τ → σ → Decision δ × ν

/-- A question to a guide with its answer. -/
inductive Call (σ ι τ δ : Type) where
  | initial (state : σ) (decision : Decision δ)
  | start (state : σ) (data : δ) (accepted : Bool)
  | transition (source : σ) (data : δ) (letter : ι) (transition : τ) (successor : σ)
      (decision : Decision δ)
  deriving DecidableEq

namespace Guide

variable {σ ι τ δ ν : Type}

def logged (g : Guide σ ι τ δ ν) : Guide σ ι τ δ (ν × Array (Call σ ι τ δ)) where
  onInitial := fun (m, calls) s =>
    let (d, m) := g.onInitial m s
    (d, m, calls.push (.initial s d))
  onStart := fun (m, calls) s data =>
    let (b, m) := g.onStart m s data
    (b, m, calls.push (.start s data b))
  onTransition := fun (m, calls) s data i x t =>
    let (d, m) := g.onTransition m s data i x t
    (d, m, calls.push (.transition s data i x t d))

end Guide

end Exploration
