/-
# The pool is an executor

What is left of the pool without its queues, its counter and its semaphores. A
task waits from its pick until a thread has taken it off the counter, and then
it runs until it returns: so seen, the pool is an executor with `n` workers. A
step of the pool is one of the executor or none (`executor_next`), and every
run is a run of the executor on the tasks in their order (`refines_executor`).

Key definitions: `ThreadPool.executor`, `ThreadPool.events`,
`ThreadPool.tasksTrace`.
Key theorems: `ThreadPool.executor_next`, `ThreadPool.refines_executor`.
-/
import NiceHttp.Dispatch
import NiceHttp.Lib.Executor

namespace NiceHttp

open Places Run

/-- The task that the thread has taken and not begun. -/
def Place.waits : Place → Multiset ℕ
  | taken t _ => {t}
  | _ => 0

/-- The task that the thread runs. -/
def Place.runs : Place → Multiset ℕ
  | running t _ => {t}
  | _ => 0

theorem Place.card_runs_le (p : Place) : p.runs.card ≤ 1 := by
  cases p with
  | running t stolen => exact (Multiset.card_singleton t).le
  | _ => exact Nat.zero_le 1

namespace ThreadPool

variable {n : ℕ} {release : ℕ → ℕ} {s s' : ThreadPool n} {a : Act n}

/-- The tasks of the pool, as an executor has them. -/
def executor (s : ThreadPool n) : Executor ℕ where
  waiting := s.owner.tasks + total ThreadSafeQueue.bag s.tasks + total Place.waits s.threads
  running := total Place.runs s.threads
  finished := s.finished

/-- What a step does with the tasks. -/
def events (s : ThreadPool n) : Act n → List (Executor.Event ℕ)
  | .enqueue => if s.priorityQueue.isEmpty then [] else [.submit s.enqueued]
  | .thread i =>
    match s.threads i with
    | .taken t _ => [.start t]
    | .running t _ => [.finish t]
    | _ => []
  | _ => []

/-- A thread that changes its place with the same tasks. -/
theorem executor_go {i : Fin n} {p : Place} (hwaits : p.waits = (s.threads i).waits)
    (hruns : p.runs = (s.threads i).runs) : (s.go i p).executor = s.executor := by
  unfold executor go
  rw [total_keep hwaits, total_keep hruns]

/-- A thread that takes a task from a queue into its hands. -/
theorem executor_take {i : Fin n} {t : ℕ} {stolen : Bool} {p : Place} {queues : Fin n → ThreadSafeQueue ℕ}
    (hp : p = s.threads i) (hwaits : p.waits = 0) (hruns : p.runs = 0)
    (htake : total ThreadSafeQueue.bag s.tasks = total ThreadSafeQueue.bag queues + {t}) :
    { s.go i (.taken t stolen) with tasks := queues }.executor = s.executor := by
  have hput : total Place.waits (s.go i (.taken t stolen)).threads = total Place.waits s.threads + {t} :=
    total_put (by rw [← hp, hwaits, zero_add]; rfl)
  have hkeep : total Place.runs (s.go i (.taken t stolen)).threads = total Place.runs s.threads :=
    total_keep (by rw [← hp, hruns]; rfl)
  refine Executor.ext ?_ hkeep rfl
  simp only [executor, htake, hput]
  simp only [go]
  abel

/-- A thread that does not run a task leaves room for one. -/
theorem card_runs_lt {i : Fin n} (h : (s.threads i).runs = 0) : (total Place.runs s.threads).card < n := by
  rw [card_total]
  have hlt : total (fun p : Place => p.runs.card) s.threads < Fintype.card (Fin n) :=
    total_lt_card (fun j => (s.threads j).card_runs_le) (i := i) (by rw [h]; rfl)
  rwa [Fintype.card_fin] at hlt

/-- A step that the executor does not see. -/
theorem executor_silent (hevents : s.events a = []) (hs : s'.executor = s.executor) :
    run (Executor.step n) s.executor (s.events a) = some s'.executor := by
  rw [hevents, hs]
  rfl

/-- **A step of the pool is a step of the executor**, or none. -/
theorem executor_next (h : Next release s a s') : run (Executor.step n) s.executor (s.events a) = some s'.executor := by
  cases h with
  | @pick i q ho hq =>
    have hevents : s.events .enqueue = [.submit s.enqueued] := by
      cases hp : s.priorityQueue with
      | nil =>
        rw [hp] at hq
        cases hq
      | cons j r => simp [events, hp]
    rw [hevents]
    refine run_single (congrArg some (Executor.ext ?_ rfl rfl))
    simp only [executor, ho, Owner.tasks]
    abel
  | drop ho hq =>
    refine executor_silent ?_ rfl
    cases hp : s.priorityQueue with
    | nil => simp [events, hp]
    | cons j r =>
      rw [hp] at hq
      cases hq
  | count ho => exact executor_silent rfl (by simp only [executor, ho, Owner.tasks])
  | @push i t ho =>
    have hput : total ThreadSafeQueue.bag (Function.update s.tasks i (s.tasks i ++ [t])) =
        total ThreadSafeQueue.bag s.tasks + {t} :=
      total_put (ThreadSafeQueue.bag_concat t (s.tasks i))
    refine executor_silent rfl (Executor.ext ?_ rfl rfl)
    simp only [executor, ho, Owner.tasks, hput]
    abel
  | raise ho => exact executor_silent rfl (by simp only [executor, ho, Owner.tasks])
  | destroy ho => exact executor_silent rfl (by simp only [executor, ho, Owner.tasks])
  | requestStop ho => exact executor_silent rfl (by simp only [executor, ho, Owner.tasks])
  | wake ho => exact executor_silent rfl (by simp only [executor, ho, Owner.tasks])
  | join ho => exact executor_silent rfl (by simp only [executor, ho, Owner.tasks])
  | leave ho => exact executor_silent rfl (by simp only [executor, ho, Owner.tasks])
  | acquire hp =>
    exact executor_silent (by simp only [events, hp]) (executor_go (s := s) (by rw [hp]; rfl) (by rw [hp]; rfl))
  | @pop i t q hp hq =>
    have htake : total ThreadSafeQueue.bag s.tasks =
        total ThreadSafeQueue.bag (Function.update s.tasks i q) + {t} :=
      total_take (by rw [hq, ThreadSafeQueue.bag_cons])
    exact executor_silent (by simp only [events, hp]) (executor_take hp.symm rfl rfl htake)
  | empty hp => exact executor_silent (by simp only [events, hp]) (executor_go (by rw [hp]; rfl) (by rw [hp]; rfl))
  | @steal i j t q hp _ hq =>
    have htake : total ThreadSafeQueue.bag s.tasks =
        total ThreadSafeQueue.bag (Function.update s.tasks (victim i j) q) + {t} :=
      total_take (by rw [hq, ThreadSafeQueue.bag_concat])
    exact executor_silent (by simp only [events, hp]) (executor_take hp.symm rfl rfl htake)
  | miss hp => exact executor_silent (by simp only [events, hp]) (executor_go (by rw [hp]; rfl) (by rw [hp]; rfl))
  | giveUp hp => exact executor_silent (by simp only [events, hp]) (executor_go (by rw [hp]; rfl) (by rw [hp]; rfl))
  | @start i t stolen hp =>
    have hwaits : total Place.waits s.threads = total Place.waits (s.go i (.running t stolen)).threads + {t} :=
      total_take (by rw [hp]; rfl)
    have hruns : total Place.runs (s.go i (.running t stolen)).threads = total Place.runs s.threads + {t} :=
      total_put (by rw [hp]; rfl)
    have hwaiting : s.executor.waiting = s.owner.tasks + total ThreadSafeQueue.bag s.tasks +
        total Place.waits (s.go i (.running t stolen)).threads + {t} := by
      simp only [executor, hwaits, add_assoc]
    rw [show s.events (.thread i) = [.start t] by simp only [events, hp]]
    refine run_single ((Executor.step_start hwaiting (card_runs_lt (i := i) (by rw [hp]; rfl))).trans ?_)
    exact congrArg some (Executor.ext rfl hruns.symm rfl)
  | @finish i t stolen hp =>
    have hwaits : total Place.waits (s.go i (if stolen then .checking else .popping)).threads =
        total Place.waits s.threads :=
      total_keep (by rw [hp]; cases stolen <;> rfl)
    have hruns : total Place.runs s.threads =
        total Place.runs (s.go i (if stolen then .checking else .popping)).threads + {t} :=
      total_take (by rw [hp]; cases stolen <;> rfl)
    rw [show s.events (.thread i) = [.finish t] by simp only [events, hp]]
    refine run_single ((Executor.step_finish hruns).trans (congrArg some (Executor.ext ?_ rfl rfl)))
    exact congrArg (s.owner.tasks + total ThreadSafeQueue.bag s.tasks + ·) hwaits.symm
  | again hp => exact executor_silent (by simp only [events, hp]) (executor_go (by rw [hp]; rfl) (by rw [hp]; rfl))
  | rest hp => exact executor_silent (by simp only [events, hp]) (executor_go (by rw [hp]; rfl) (by rw [hp]; rfl))
  | rotate hp =>
    exact executor_silent (by simp only [events, hp]) (executor_go (s := s) (by rw [hp]; rfl) (by rw [hp]; rfl))
  | exit hp => exact executor_silent (by simp only [events, hp]) (executor_go (by rw [hp]; rfl) (by rw [hp]; rfl))
  | sleep hp => exact executor_silent (by simp only [events, hp]) (executor_go (by rw [hp]; rfl) (by rw [hp]; rfl))

/-! ### Every run -/

/-- What the steps of a run do with the tasks, in their order. -/
def tasksTrace (release : ℕ → ℕ) : ThreadPool n → List (Act n) → List (Executor.Event ℕ) := trace (step release) events

/-- A step submits the next number, if it enqueues. -/
theorem submitted_next (h : Next release s a s') :
    List.range s'.enqueued = List.range s.enqueued ++ Executor.submitted (s.events a) := by
  have hsilent : ∀ es, Executor.submitted es = [] →
      List.range s.enqueued = List.range s.enqueued ++ Executor.submitted es := fun es he => by
    rw [he, List.append_nil]
  have hthread : ∀ i, Executor.submitted (s.events (.thread i)) = [] := fun i => by
    simp only [events]
    split <;> rfl
  cases h with
  | @pick i q ho hq =>
    have hpriority : s.priorityQueue ≠ [] := by
      intro hp
      rw [hp] at hq
      cases hq
    simp [events, hpriority, List.range_succ, Executor.submitted]
  | drop ho hq =>
    have hpriority : s.priorityQueue = [] := by
      by_contra hp
      obtain ⟨j, r, hjr⟩ := List.exists_cons_of_ne_nil hp
      rw [hjr] at hq
      cases hq
    exact hsilent _ (by simp [events, hpriority, Executor.submitted])
  | count => exact hsilent _ rfl
  | push => exact hsilent _ rfl
  | raise => exact hsilent _ rfl
  | destroy => exact hsilent _ rfl
  | requestStop => exact hsilent _ rfl
  | wake => exact hsilent _ rfl
  | join => exact hsilent _ rfl
  | leave => exact hsilent _ rfl
  | _ => exact hsilent _ (hthread _)

/-- The tasks are submitted in the order of their numbers. -/
theorem submitted_tasksTrace : ∀ {acts : List (Act n)} {s s' : ThreadPool n}, run (step release) s acts = some s' →
    List.range s'.enqueued = List.range s.enqueued ++ Executor.submitted (tasksTrace release s acts)
  | [], _, _, hrun => by
    rw [Option.some.inj hrun]
    exact (List.append_nil _).symm
  | a :: acts, s, s', hrun => by
    rw [run_cons] at hrun
    obtain ⟨t, ht, hrest⟩ := Option.bind_eq_some_iff.mp hrun
    have htrace : tasksTrace release s (a :: acts) = s.events a ++ tasksTrace release t acts := trace_cons events ht acts
    rw [htrace, Executor.submitted_append, ← List.append_assoc, ← submitted_next (next_of_step ht)]
    exact submitted_tasksTrace hrest

theorem executor_init : ({} : ThreadPool n).executor = {} := by
  simp [executor, Owner.tasks, total, ThreadSafeQueue.bag, Place.waits, Place.runs]

/-- **The pool is an executor with `n` workers.** In every run, what the pool
does with its tasks is a run of the executor to the executor's view of the pool:
the tasks are submitted in the order of their numbers, each is in one place, and
no more than `n` run at a time. -/
theorem refines_executor {acts : List (Act n)} (hrun : run (step release) {} acts = some s) :
    run (Executor.step n) {} (tasksTrace release {} acts) = some s.executor ∧
      Executor.submitted (tasksTrace release {} acts) = List.range s.enqueued ∧
      s.executor.all = Multiset.range s.enqueued ∧ s.executor.running.card ≤ n := by
  have hexecutor : run (Executor.step n) {} (tasksTrace release {} acts) = some s.executor := by
    rw [← executor_init]
    exact simulation_trace executor events (fun h => executor_next (next_of_step h)) hrun
  have hsubmitted : Executor.submitted (tasksTrace release {} acts) = List.range s.enqueued :=
    (submitted_tasksTrace hrun).symm
  refine ⟨hexecutor, hsubmitted, ?_, Executor.card_running_le hexecutor⟩
  rw [Executor.conserved hexecutor, hsubmitted]
  rfl

theorem refines_executor_stolen :
    ∃ s, run (step Nat.succ) ({} : ThreadPool 2) (stolenTask 0 1) = some s ∧
      run (Executor.step 2) {} [.submit 0, .submit 1, .start 0, .finish 0, .start 1, .finish 1] = some s.executor := by
  obtain ⟨s, hrun⟩ : ∃ s, run (step Nat.succ) ({} : ThreadPool 2) (stolenTask 0 1) = some s := ⟨_, rfl⟩
  exact ⟨s, hrun, (refines_executor hrun).1⟩

end ThreadPool

end NiceHttp
