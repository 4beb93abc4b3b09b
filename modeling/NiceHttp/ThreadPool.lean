/-
# The thread pool

`dp::thread_pool` and `dp::thread_safe_queue`. Every thread has a queue of
tasks and a semaphore; the owner of the pool puts a task into the queue of the
thread that is first in the priority queue, and raises its semaphore. A thread
that is woken empties its queue, then steals a task from the back of another
queue, and goes on as long as the counter `pending_tasks_` is positive.

The owner (here the one thread that calls `enqueue_detach` and destroys the
pool) and the threads take their steps in any order. A step is a method of a
queue, which holds its mutex, or one access to an atomic, a semaphore or a
stop token; the steps are interleaved, so the memory orders weaker than
sequential consistency are not here. A task is its number in the order of the
enqueueing, and its run is not looked into: it takes some time and returns,
since the wrapper of `enqueue_detach` drops what it throws.

A semaphore is a counter that one thread waits for. What `release` makes of a
counter is a parameter: from 0 it is 1, and the standard promises nothing for
a `binary_semaphore` that is up already, which `enqueue_task` releases all the
same.

Key definitions: `ThreadSafeQueue`, `construct`, `ThreadPool`,
`ThreadPool.step`, `ThreadPool.Next`.
Key theorems: `construct_eq`, `ThreadPool.next_of_step`.
-/
import NiceHttp.Lib.Run

namespace NiceHttp

/-! ### The queues -/

/-- `thread_safe_queue`. -/
abbrev ThreadSafeQueue (α : Type*) := List α

namespace ThreadSafeQueue

variable {α : Type*}

/-- `push_back`. -/
def pushBack (q : ThreadSafeQueue α) (value : α) : ThreadSafeQueue α := q ++ [value]

/-- `pop_front`. -/
def popFront : ThreadSafeQueue α → Option (α × ThreadSafeQueue α)
  | [] => none
  | front :: q => some (front, q)

/-- `steal`, and `pop_back`. -/
def steal (q : ThreadSafeQueue α) : Option (α × ThreadSafeQueue α) := q.getLast?.map fun back => (back, q.dropLast)

/-- `rotate_to_front`. -/
def rotateToFront [DecidableEq α] (q : ThreadSafeQueue α) (item : α) : ThreadSafeQueue α := item :: q.erase item

/-- `copy_front_and_rotate_to_back`. -/
def copyFrontAndRotateToBack : ThreadSafeQueue α → Option (α × ThreadSafeQueue α)
  | [] => none
  | front :: q => some (front, q ++ [front])

theorem popFront_eq_some {q q' : ThreadSafeQueue α} {a : α} : popFront q = some (a, q') ↔ q = a :: q' := by
  cases q with
  | nil => exact ⟨nofun, nofun⟩
  | cons b q => simp [popFront]

theorem popFront_eq_none {q : ThreadSafeQueue α} : popFront q = none ↔ q = [] := by
  cases q with
  | nil => exact ⟨fun _ => rfl, fun _ => rfl⟩
  | cons b q => exact ⟨nofun, nofun⟩

theorem steal_eq_some {q q' : ThreadSafeQueue α} {a : α} (h : steal q = some (a, q')) : q = q' ++ [a] := by
  obtain ⟨back, hback, he⟩ := Option.map_eq_some_iff.mp h
  obtain ⟨rfl, rfl⟩ := Prod.mk.inj he
  obtain ⟨l, rfl⟩ := List.getLast?_eq_some_iff.mp hback
  rw [List.dropLast_concat]

theorem steal_eq_none {q : ThreadSafeQueue α} (h : steal q = none) : q = [] :=
  List.getLast?_eq_none_iff.mp (Option.map_eq_none_iff.mp h)

theorem rotateToFront_perm [DecidableEq α] {q : ThreadSafeQueue α} {item : α} (h : item ∈ q) :
    (rotateToFront q item).Perm q := (List.perm_cons_erase h).symm

theorem copyFront_perm {q q' : ThreadSafeQueue α} {a : α} (h : copyFrontAndRotateToBack q = some (a, q')) :
    q'.Perm q := by
  cases q with
  | nil => cases h
  | cons b q =>
    obtain ⟨rfl, rfl⟩ := Prod.mk.inj (Option.some.inj h)
    exact List.perm_append_singleton _ _

end ThreadSafeQueue

/-! ### The constructor -/

/-- The fields that the constructor fills: the ids of `threads_` in their
order, the length of `tasks_`, the priority queue, and its counter. -/
structure Construction where
  threads : List ℕ := []
  tasks : ℕ
  priorityQueue : ThreadSafeQueue ℕ := []
  currentId : ℕ := 0
  deriving DecidableEq

/-- One turn of the loop of the constructor; the thread is created, or its
creation throws. -/
def Construction.turn (c : Construction) (created : Bool) : Construction :=
  let c := { c with priorityQueue := c.priorityQueue.pushBack c.currentId }
  if created then { c with threads := c.threads ++ [c.currentId], currentId := c.currentId + 1 }
  else { c with tasks := c.tasks - 1, priorityQueue := c.priorityQueue.dropLast }

/-- `thread_pool(number_of_threads)`, with the outcome of each creation. -/
def construct (created : List Bool) : Construction := created.foldl Construction.turn { tasks := created.length }

/-- **Whatever creations throw**, the threads, the queues and the priority
queue have the same ids, without a gap. -/
theorem construct_eq (created : List Bool) :
    construct created =
      { threads := List.range (created.count true), tasks := created.count true,
        priorityQueue := List.range (created.count true), currentId := created.count true } := by
  have hturns : ∀ (bs : List Bool) (k m : ℕ),
      bs.foldl Construction.turn ⟨List.range k, bs.length + m, List.range k, k⟩ =
        ⟨List.range (k + bs.count true), bs.count true + m, List.range (k + bs.count true), k + bs.count true⟩ := by
    intro bs
    induction bs with
    | nil => exact fun k m => by simp
    | cons b bs ih =>
      intro k m
      rw [List.foldl_cons]
      cases b with
      | true =>
        have hturn : Construction.turn ⟨List.range k, (true :: bs).length + m, List.range k, k⟩ true =
            ⟨List.range (k + 1), bs.length + (m + 1), List.range (k + 1), k + 1⟩ := by
          simp [Construction.turn, ThreadSafeQueue.pushBack, List.range_succ, Nat.add_right_comm, Nat.add_assoc]
        rw [hturn, ih, List.count_cons_self]
        simp [Nat.add_comm, Nat.add_left_comm]
      | false =>
        have hturn : Construction.turn ⟨List.range k, (false :: bs).length + m, List.range k, k⟩ false =
            ⟨List.range k, bs.length + m, List.range k, k⟩ := by
          simp [Construction.turn, ThreadSafeQueue.pushBack, Nat.add_right_comm]
        rw [hturn, ih, List.count_cons_of_ne (by decide)]
  have h := hturns created 0 0
  simpa [construct] using h

/-! ### The pool -/

/-- Where a thread is in its loop. A task in its hands was popped from its own
queue or stolen. -/
inductive Place where
  | waiting
  | popping
  | taken (task : ℕ) (stolen : Bool)
  | running (task : ℕ) (stolen : Bool)
  | stealing (j : ℕ)
  | checking
  | rotating
  | testing
  | exited
  deriving DecidableEq

/-- Where the owner is: between its calls, in `enqueue_task`, in the
destructor, or behind it. -/
inductive Owner (n : ℕ) where
  | ready
  | picked (i : Fin n) (task : ℕ)
  | counted (i : Fin n) (task : ℕ)
  | pushed (i : Fin n)
  | stopping (i : ℕ)
  | signalling (i : Fin n)
  | joining (i : Fin n)
  | gone
  deriving DecidableEq

/-- A pool of `n` threads. `enqueued` counts the tasks, and `finished` has
those that returned; no code reads the two. -/
structure ThreadPool (n : ℕ) where
  tasks : Fin n → ThreadSafeQueue ℕ := fun _ => []
  signal : Fin n → ℕ := fun _ => 0
  threads : Fin n → Place := fun _ => .waiting
  stop : Fin n → Bool := fun _ => false
  priorityQueue : ThreadSafeQueue (Fin n) := List.finRange n
  pendingTasks : ℤ := 0
  owner : Owner n := .ready
  enqueued : ℕ := 0
  finished : List ℕ := []

/-- The owner calls `enqueue_detach`, or destroys the pool; it goes on with
what it is at; a thread goes on. -/
inductive Act (n : ℕ) where
  | enqueue
  | destroy
  | owner
  | thread (i : Fin n)

namespace ThreadPool

variable {n : ℕ}

/-- The thread goes to the place. -/
def go (s : ThreadPool n) (i : Fin n) (p : Place) : ThreadPool n :=
  { s with threads := Function.update s.threads i p }

theorem go_threads_self (s : ThreadPool n) (i : Fin n) (p : Place) : (s.go i p).threads i = p := Function.update_self ..

theorem go_threads_ne (s : ThreadPool n) {i j : Fin n} (h : j ≠ i) (p : Place) :
    (s.go i p).threads j = s.threads j := Function.update_of_ne h ..

/-- The queue that thread `i` tries in turn `j`. -/
def victim (i : Fin n) (j : ℕ) : Fin n := ⟨(i + j) % n, Nat.mod_lt _ (Nat.zero_lt_of_lt i.isLt)⟩

/-- The next step of a thread. -/
def threadStep (s : ThreadPool n) (i : Fin n) : Option (ThreadPool n) :=
  match s.threads i with
  | .waiting =>
    if s.signal i = 0 then none
    else some { s.go i .popping with signal := Function.update s.signal i (s.signal i - 1) }
  | .popping =>
    match (s.tasks i).popFront with
    | some (t, q) => some { s.go i (.taken t false) with tasks := Function.update s.tasks i q }
    | none => some (s.go i (.stealing 1))
  | .taken t stolen => some { s.go i (.running t stolen) with pendingTasks := s.pendingTasks - 1 }
  | .running t stolen =>
    some { s.go i (if stolen then .checking else .popping) with finished := s.finished ++ [t] }
  | .stealing j =>
    if j < n then
      match (s.tasks (victim i j)).steal with
      | some (t, q) => some { s.go i (.taken t true) with tasks := Function.update s.tasks (victim i j) q }
      | none => some (s.go i (.stealing (j + 1)))
    else some (s.go i .checking)
  | .checking => some (s.go i (if s.pendingTasks > 0 then .popping else .rotating))
  | .rotating => some { s.go i .testing with priorityQueue := s.priorityQueue.rotateToFront i }
  | .testing => some (s.go i (if s.stop i then .exited else .waiting))
  | .exited => none

variable (release : ℕ → ℕ)

/-- The next step of the owner in `enqueue_task` or in the destructor. -/
def ownerStep (s : ThreadPool n) : Option (ThreadPool n) :=
  match s.owner with
  | .ready => none
  | .picked i t => some { s with pendingTasks := s.pendingTasks + 1, owner := .counted i t }
  | .counted i t => some { s with tasks := Function.update s.tasks i ((s.tasks i).pushBack t), owner := .pushed i }
  | .pushed i => some { s with signal := Function.update s.signal i (release (s.signal i)), owner := .ready }
  | .stopping i =>
    if h : i < n then some { s with stop := Function.update s.stop ⟨i, h⟩ true, owner := .signalling ⟨i, h⟩ }
    else some { s with owner := .gone }
  | .signalling i => some { s with signal := Function.update s.signal i (release (s.signal i)), owner := .joining i }
  | .joining i => if s.threads i = .exited then some { s with owner := .stopping (i + 1) } else none
  | .gone => none

/-- A step, if it is possible. Without threads a task is dropped. -/
def step (s : ThreadPool n) : Act n → Option (ThreadPool n)
  | .enqueue =>
    if s.owner ≠ .ready then none
    else
      match s.priorityQueue.copyFrontAndRotateToBack with
      | some (i, q) =>
        some { s with priorityQueue := q, owner := .picked i s.enqueued, enqueued := s.enqueued + 1 }
      | none => some s
  | .destroy => if s.owner ≠ .ready then none else some { s with owner := .stopping 0 }
  | .owner => s.ownerStep release
  | .thread i => s.threadStep i

/-! ### What a step can do -/

/-- The steps, one case for each branch. -/
inductive Next (s : ThreadPool n) : Act n → ThreadPool n → Prop where
  | pick {i : Fin n} {q} (h : s.owner = .ready) : s.priorityQueue.copyFrontAndRotateToBack = some (i, q) →
      Next s .enqueue
        { s with priorityQueue := q, owner := .picked i s.enqueued, enqueued := s.enqueued + 1 }
  | drop (h : s.owner = .ready) : s.priorityQueue.copyFrontAndRotateToBack = none → Next s .enqueue s
  | count {i : Fin n} {t : ℕ} (h : s.owner = .picked i t) :
      Next s .owner { s with pendingTasks := s.pendingTasks + 1, owner := .counted i t }
  | push {i : Fin n} {t : ℕ} (h : s.owner = .counted i t) :
      Next s .owner { s with tasks := Function.update s.tasks i (s.tasks i ++ [t]), owner := .pushed i }
  | raise {i : Fin n} (h : s.owner = .pushed i) :
      Next s .owner { s with signal := Function.update s.signal i (release (s.signal i)), owner := .ready }
  | destroy (h : s.owner = .ready) : Next s .destroy { s with owner := .stopping 0 }
  | requestStop {i : ℕ} (h : s.owner = .stopping i) (hi : i < n) :
      Next s .owner { s with stop := Function.update s.stop ⟨i, hi⟩ true, owner := .signalling ⟨i, hi⟩ }
  | wake {i : Fin n} (h : s.owner = .signalling i) :
      Next s .owner { s with signal := Function.update s.signal i (release (s.signal i)), owner := .joining i }
  | join {i : Fin n} (h : s.owner = .joining i) : s.threads i = .exited →
      Next s .owner { s with owner := .stopping (i + 1) }
  | leave {i : ℕ} (h : s.owner = .stopping i) : ¬ i < n → Next s .owner { s with owner := .gone }
  | acquire {i : Fin n} (h : s.threads i = .waiting) : s.signal i ≠ 0 →
      Next s (.thread i) { s.go i .popping with signal := Function.update s.signal i (s.signal i - 1) }
  | pop {i : Fin n} {t : ℕ} {q} (h : s.threads i = .popping) : s.tasks i = t :: q →
      Next s (.thread i) { s.go i (.taken t false) with tasks := Function.update s.tasks i q }
  | empty {i : Fin n} (h : s.threads i = .popping) : s.tasks i = [] → Next s (.thread i) (s.go i (.stealing 1))
  | steal {i : Fin n} {j t : ℕ} {q} (h : s.threads i = .stealing j) (hj : j < n) :
      s.tasks (victim i j) = q ++ [t] →
      Next s (.thread i) { s.go i (.taken t true) with tasks := Function.update s.tasks (victim i j) q }
  | miss {i : Fin n} {j : ℕ} (h : s.threads i = .stealing j) (hj : j < n) : s.tasks (victim i j) = [] →
      Next s (.thread i) (s.go i (.stealing (j + 1)))
  | giveUp {i : Fin n} {j : ℕ} (h : s.threads i = .stealing j) : ¬ j < n → Next s (.thread i) (s.go i .checking)
  | start {i : Fin n} {t : ℕ} {stolen : Bool} (h : s.threads i = .taken t stolen) :
      Next s (.thread i) { s.go i (.running t stolen) with pendingTasks := s.pendingTasks - 1 }
  | finish {i : Fin n} {t : ℕ} {stolen : Bool} (h : s.threads i = .running t stolen) :
      Next s (.thread i)
        { s.go i (if stolen then .checking else .popping) with finished := s.finished ++ [t] }
  | again {i : Fin n} (h : s.threads i = .checking) : 0 < s.pendingTasks → Next s (.thread i) (s.go i .popping)
  | rest {i : Fin n} (h : s.threads i = .checking) : s.pendingTasks ≤ 0 → Next s (.thread i) (s.go i .rotating)
  | rotate {i : Fin n} (h : s.threads i = .rotating) :
      Next s (.thread i) { s.go i .testing with priorityQueue := s.priorityQueue.rotateToFront i }
  | exit {i : Fin n} (h : s.threads i = .testing) : s.stop i = true → Next s (.thread i) (s.go i .exited)
  | sleep {i : Fin n} (h : s.threads i = .testing) : s.stop i = false → Next s (.thread i) (s.go i .waiting)

variable {release} {s s' : ThreadPool n} {a : Act n}

theorem next_of_threadStep {i : Fin n} (h : s.threadStep i = some s') : Next release s (.thread i) s' := by
  unfold threadStep at h
  cases hp : s.threads i with
  | waiting =>
    simp only [hp] at h
    split at h
    · cases h
    · cases h
      exact .acquire hp ‹_›
  | popping =>
    simp only [hp] at h
    split at h
    · rename_i t q hq
      cases h
      exact .pop hp (ThreadSafeQueue.popFront_eq_some.mp hq)
    · rename_i hq
      cases h
      exact .empty hp (ThreadSafeQueue.popFront_eq_none.mp hq)
  | taken t stolen =>
    simp only [hp] at h
    cases h
    exact .start hp
  | running t stolen =>
    simp only [hp] at h
    cases h
    exact .finish hp
  | stealing j =>
    simp only [hp] at h
    split at h
    · split at h
      · rename_i t q hq
        cases h
        exact .steal hp ‹_› (ThreadSafeQueue.steal_eq_some hq)
      · rename_i hq
        cases h
        exact .miss hp ‹_› (ThreadSafeQueue.steal_eq_none hq)
    · cases h
      exact .giveUp hp ‹_›
  | checking =>
    simp only [hp] at h
    cases h
    split
    · exact .again hp ‹_›
    · exact .rest hp (not_lt.mp ‹_›)
  | rotating =>
    simp only [hp] at h
    cases h
    exact .rotate hp
  | testing =>
    simp only [hp] at h
    cases h
    split
    · exact .exit hp ‹_›
    · exact .sleep hp (Bool.eq_false_iff.mpr ‹_›)
  | exited =>
    simp only [hp] at h
    cases h

theorem next_of_ownerStep (h : s.ownerStep release = some s') : Next release s .owner s' := by
  unfold ownerStep at h
  cases ho : s.owner with
  | ready =>
    simp only [ho] at h
    cases h
  | picked i t =>
    simp only [ho] at h
    cases h
    exact .count ho
  | counted i t =>
    simp only [ho] at h
    cases h
    exact .push ho
  | pushed i =>
    simp only [ho] at h
    cases h
    exact .raise ho
  | stopping i =>
    simp only [ho] at h
    split at h
    · cases h
      exact .requestStop ho ‹_›
    · cases h
      exact .leave ho ‹_›
  | signalling i =>
    simp only [ho] at h
    cases h
    exact .wake ho
  | joining i =>
    simp only [ho] at h
    split at h
    · cases h
      exact .join ho ‹_›
    · cases h
  | gone =>
    simp only [ho] at h
    cases h

/-- **Every step is one of the cases.** -/
theorem next_of_step (h : step release s a = some s') : Next release s a s' := by
  cases a with
  | enqueue =>
    simp only [step] at h
    split at h
    · cases h
    · rename_i ho
      rw [not_not] at ho
      split at h
      · cases h
        exact .pick ho ‹_›
      · cases h
        exact .drop ho ‹_›
  | destroy =>
    simp only [step] at h
    split at h
    · cases h
    · cases h
      exact .destroy (not_not.mp ‹_›)
  | owner => exact next_of_ownerStep h
  | thread i => exact next_of_threadStep h

end ThreadPool

end NiceHttp
