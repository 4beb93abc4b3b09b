/-
# Executors

What a pool of workers is for, without its queues and its threads: submitted
tasks wait in a bag, and are started in any order, at most `n` at a time. In
every run a task is in one place (`conserved`), so it is started and finished
no more often than it was submitted, and no more than `n` tasks are running
(`card_running_le`).

Key definitions: `Executor`, `Executor.Event`, `Executor.step`.
Key theorems: `Executor.conserved`, `Executor.card_running_le`.
-/
import NiceHttp.Lib.Run

@[ext] structure Executor (τ : Type*) where
  waiting : Multiset τ := 0
  running : Multiset τ := 0
  finished : List τ := []

namespace Executor

open Run

inductive Event (τ : Type*) where
  | submit (t : τ)
  | start (t : τ)
  | finish (t : τ)

variable {τ : Type*}

/-- The tasks that the events submit, in their order. -/
def submitted : List (Event τ) → List τ
  | [] => []
  | .submit t :: es => t :: submitted es
  | _ :: es => submitted es

theorem submitted_append : ∀ es es' : List (Event τ), submitted (es ++ es') = submitted es ++ submitted es'
  | [], _ => rfl
  | e :: es, es' => by
    cases e with
    | submit t => exact congrArg (t :: ·) (submitted_append es es')
    | start t => exact submitted_append es es'
    | finish t => exact submitted_append es es'

/-- The tasks of all places. -/
def all (s : Executor τ) : Multiset τ := s.waiting + s.running + s.finished

variable [DecidableEq τ]

/-- A step of an executor with `n` workers, if it is possible. -/
def step (n : ℕ) (s : Executor τ) : Event τ → Option (Executor τ)
  | .submit t => some { s with waiting := s.waiting + {t} }
  | .start t =>
    if t ∈ s.waiting ∧ s.running.card < n then
      some { s with waiting := s.waiting.erase t, running := s.running + {t} }
    else none
  | .finish t =>
    if t ∈ s.running then some { s with running := s.running.erase t, finished := s.finished ++ [t] } else none

/-- A bag with an element is the rest and the element. -/
theorem erase_add {t : τ} {b : Multiset τ} (h : t ∈ b) : b.erase t + {t} = b := by
  rw [add_comm, Multiset.singleton_add, Multiset.cons_erase h]

variable {n : ℕ} {s s' : Executor τ} {t : τ} {rest : Multiset τ}

/-- A task that waits is started if a worker is free. -/
theorem step_start (hw : s.waiting = rest + {t}) (hn : s.running.card < n) :
    step n s (.start t) = some { s with waiting := rest, running := s.running + {t} } := by
  have ht : t ∈ s.waiting := hw ▸ Multiset.mem_add.mpr (Or.inr (Multiset.mem_singleton_self t))
  rw [step, if_pos ⟨ht, hn⟩, add_right_cancel ((erase_add ht).trans hw)]

/-- A task that runs can finish. -/
theorem step_finish (hr : s.running = rest + {t}) :
    step n s (.finish t) = some { s with running := rest, finished := s.finished ++ [t] } := by
  have ht : t ∈ s.running := hr ▸ Multiset.mem_add.mpr (Or.inr (Multiset.mem_singleton_self t))
  rw [step, if_pos ht, add_right_cancel ((erase_add ht).trans hr)]

/-- **A step adds the task that it submits, and loses none.** -/
theorem all_step {e : Event τ} (h : step n s e = some s') : s'.all = s.all + submitted [e] := by
  cases e with
  | submit t =>
    cases h
    show s.waiting + {t} + s.running + s.finished = s.waiting + s.running + s.finished + {t}
    abel
  | start t =>
    rw [step] at h
    split at h
    · rename_i ht
      cases h
      show s.waiting.erase t + (s.running + {t}) + s.finished = s.waiting + s.running + s.finished + 0
      conv_rhs => rw [← erase_add ht.1]
      abel
    · cases h
  | finish t =>
    rw [step] at h
    split at h
    · rename_i ht
      cases h
      show s.waiting + s.running.erase t + (s.finished ++ [t] : List τ) = s.waiting + s.running + s.finished + 0
      conv_rhs => rw [← erase_add ht]
      rw [← Multiset.coe_add, Multiset.coe_singleton]
      abel
    · cases h

/-- **Every submitted task is in one place.** -/
theorem conserved {es : List (Event τ)} (hrun : run (step n) {} es = some s) : s.all = (submitted es : Multiset τ) := by
  refine history (I := fun es s => s.all = (submitted es : Multiset τ)) rfl (fun {es s e s'} hs h => ?_) es hrun
  rw [all_step h, hs, submitted_append, Multiset.coe_add]

/-- **No more tasks run than there are workers.** -/
theorem card_running_le {es : List (Event τ)} (hrun : run (step n) {} es = some s) : s.running.card ≤ n := by
  refine kept (I := fun s => s.running.card ≤ n) (fun {s e s'} hs h => ?_) (Nat.zero_le n) hrun
  cases e with
  | submit t =>
    cases h
    exact hs
  | start t =>
    rw [step] at h
    split at h
    · rename_i ht
      cases h
      rw [Multiset.card_add, Multiset.card_singleton]
      exact ht.2
    · cases h
  | finish t =>
    rw [step] at h
    split at h
    · cases h
      exact (Multiset.card_erase_le).trans hs
    · cases h

end Executor
