import AntsPool.Interleaving
import Mathlib.Data.ENat.Lattice
import Mathlib.Data.Set.Card
import Mathlib.Logic.Relation

/-!
# Executors of jobs

What a pool is for, without its machinery. A job is accepted, begun and finished, in
this order and each once, and no more jobs run at a time than the limit allows. The
limit is the largest there has been: it only rises.

A program is an executor under a view of its configurations when every move is one
step of the executor in the view, or none.
-/
namespace AntsPool

inductive Phase
  | absent
  | waiting
  | running
  | done
deriving Repr, DecidableEq

def Phase.rank : Phase → ℕ
  | absent => 0
  | waiting => 1
  | running => 2
  | done => 3

structure Executor (J : Type*) where
  phase : J → Phase
  limit : ℕ∞

namespace Executor
variable {J : Type*} {s s' : Executor J}

def runningJobs (s : Executor J) : Set J := {j | s.phase j = .running}

/-- The same executor with one job in another phase. -/
def move [DecidableEq J] (s : Executor J) (j : J) (p : Phase) : Executor J :=
  { s with phase := Function.update s.phase j p }

/-- The jobs run within the limit. -/
def Within (s : Executor J) : Prop := s.runningJobs.encard ≤ s.limit

variable [DecidableEq J]

inductive Step : Executor J → Executor J → Prop
  | accept {s j} (h : s.phase j = .absent) : Step s (s.move j .waiting)
  | begin {s j} (h : s.phase j = .waiting) (hw : (s.move j .running).Within) :
      Step s (s.move j .running)
  | finish {s j} (h : s.phase j = .running) : Step s (s.move j .done)
  | raise {s : Executor J} {limit} (h : s.limit ≤ limit) : Step s { s with limit := limit }

theorem phase_move (s : Executor J) (j k : J) (p : Phase) :
    (s.move j p).phase k = if k = j then p else s.phase k := Function.update_apply _ _ _ _

/-- A job that leaves the running ones, or never was among them, makes room. -/
theorem runningJobs_move_subset (s : Executor J) (j : J) {p : Phase} (hp : p ≠ .running) :
    (s.move j p).runningJobs ⊆ s.runningJobs := by
  intro k hk
  simp only [runningJobs, Set.mem_ofPred_eq, phase_move] at hk ⊢
  split_ifs at hk
  · exact (hp hk).elim
  · exact hk

/-- Jobs only go forward. -/
theorem Step.rank_le (h : Step s s') (j : J) : (s.phase j).rank ≤ (s'.phase j).rank := by
  cases h with
  | raise => exact le_rfl
  | accept hk | begin hk | finish hk =>
      rw [phase_move]
      split_ifs with hj
      · rw [hj, hk]
        decide
      · exact le_rfl

theorem Step.within (h : Step s s') (hs : s.Within) : s'.Within := by
  cases h with
  | accept => exact (Set.encard_le_encard (s.runningJobs_move_subset _ (by decide))).trans hs
  | begin _ hw => exact hw
  | finish => exact (Set.encard_le_encard (s.runningJobs_move_subset _ (by decide))).trans hs
  | raise hl => exact hs.trans hl

/-- In every run of an executor jobs go forward and stay within the limit. -/
theorem forward (h : Relation.ReflTransGen Step s s') (hs : s.Within) :
    (∀ j, (s.phase j).rank ≤ (s'.phase j).rank) ∧ s'.Within := by
  induction h with
  | refl => exact ⟨fun _ => le_rfl, hs⟩
  | tail _ hstep ih => exact ⟨fun j => (ih.1 j).trans (hstep.rank_le j), hstep.within ih.2⟩

end Executor

namespace Interleaving
variable {S T C A Q : Type} {P : Program S T C A} {I : Config S T → Prop}
  {G : Config S T → Move C A → Prop}

/-- When every move is a step in the view or none, every run is a run in the view. -/
theorem Program.Reach.view {step : Q → Q → Prop} {view : Config S T → Q} {x₀ : Config S T}
    (h₀ : P.Reach I G x₀)
    (simulates : ∀ x m y, P.Reach I G x → P.fire x m = some y →
      Relation.ReflGen step (view x) (view y)) {x : Config S T}
    (hx : P.Reach (fun z => z = x₀) G x) : Relation.ReflTransGen step (view x₀) (view x) := by
  induction hx with
  | init hz => rw [hz]
  | @move y z m hy _ hf ih => exact ih.trans (simulates y m z (h₀.trans hy) hf).to_reflTransGen

end Interleaving

end AntsPool
