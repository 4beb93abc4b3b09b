/-
# Which thread gets a task

`enqueue_task` takes the thread at the front of the priority queue and puts it
at the back; a thread that comes to rest puts itself at the front. So while no
thread comes to rest the tasks go round, and one thread gets every `n`-th of
them (`picks_in_turn`); and the thread that came to rest last gets the next
task (`picks_after_rest`). The tasks reach the queues of their threads in the
order in which they are picked (`pushes_eq`).

Key definitions: `ThreadPool.picks`, `ThreadPool.pushes`, `ThreadPool.rests`.
Key theorems: `ThreadPool.rotate_next`, `ThreadPool.picks_rotate`,
`ThreadPool.pushes_eq`, `ThreadPool.picks_in_turn`.
-/
import NiceHttp.Dispatch

namespace NiceHttp

open Run

/-- The task that the owner has picked a thread for and not yet put into its queue. -/
def Owner.bound {n : ℕ} : Owner n → List (Fin n × ℕ)
  | picked i t => [(i, t)]
  | counted i t => [(i, t)]
  | _ => []

/-- The task that the owner's next step puts into the queue of a thread. -/
def Owner.pushes {n : ℕ} : Owner n → List (Fin n × ℕ)
  | counted i t => [(i, t)]
  | _ => []

namespace ThreadPool

variable {n : ℕ} {release : ℕ → ℕ} {s s' t : ThreadPool n} {a : Act n}

/-- The thread for which the owner enqueues a task. -/
def chosen (s : ThreadPool n) : Act n → List (Fin n)
  | .enqueue => s.priorityQueue.head?.toList
  | _ => []

/-- The threads that the tasks of a run go to, in the order of the tasks. -/
def picks (release : ℕ → ℕ) : ThreadPool n → List (Act n) → List (Fin n) := trace (step release) chosen

/-- The thread puts itself at the front. -/
def rests (s : ThreadPool n) : Act n → Bool
  | .thread i => s.threads i = .rotating
  | _ => false

/-- **The priority queue goes round** by one with every task, unless a thread
comes to rest. -/
theorem rotate_next (h : Next release s a s') (hrest : s.rests a = false) :
    s'.priorityQueue = s.priorityQueue.rotate (s.chosen a).length := by
  cases h with
  | @pick i q ho hq =>
    cases hp : s.priorityQueue with
    | nil =>
      rw [hp] at hq
      cases hq
    | cons j r =>
      rw [hp] at hq
      obtain ⟨rfl, rfl⟩ := Prod.mk.inj (Option.some.inj hq)
      simp [chosen, hp]
  | drop ho hq =>
    cases hp : s.priorityQueue with
    | nil => rfl
    | cons j r =>
      rw [hp] at hq
      cases hq
  | rotate hp =>
    rw [rests, hp] at hrest
    cases hrest
  | _ => exact (List.rotate_zero _).symm

/-- A task goes to the front of the priority queue. -/
theorem chosen_cons {j : Fin n} {js : List (Fin n)} (h : s.chosen a = j :: js) :
    js = [] ∧ s.priorityQueue[0]? = some j := by
  cases a with
  | enqueue =>
    rw [chosen, List.head?_eq_getElem?] at h
    cases hq : s.priorityQueue[0]? with
    | none =>
      rw [hq] at h
      cases h
    | some i =>
      rw [hq] at h
      obtain ⟨rfl, rfl⟩ := List.cons.inj h
      exact ⟨rfl, rfl⟩
  | _ => cases h

/-- **While no thread comes to rest** the tasks go to the threads of the priority
queue, again and again. -/
theorem picks_rotate : ∀ {acts : List (Act n)} {s : ThreadPool n}, s.priorityQueue.length = n →
    run (step release) s acts = some s' → Always (step release) (fun s a => s.rests a = false) s acts →
    ∀ {k : ℕ} {i : Fin n}, (picks release s acts)[k]? = some i → s.priorityQueue[k % n]? = some i
  | [], _, _, _, _, _, _, hk => by cases hk
  | a :: acts, s, hlen, hrun, hrests, k, i, hk => by
    rw [run_cons] at hrun
    obtain ⟨t, ht, hrest⟩ := Option.bind_eq_some_iff.mp hrun
    have hrotate := rotate_next (next_of_step ht) hrests.1
    have htlen : t.priorityQueue.length = n := by rw [hrotate, List.length_rotate, hlen]
    have hpicks : picks release s (a :: acts) = s.chosen a ++ picks release t acts := trace_cons chosen ht acts
    rw [hpicks] at hk
    cases hc : s.chosen a with
    | nil =>
      rw [hc] at hk hrotate
      have ih := picks_rotate htlen hrest (hrests.2 t ht) hk
      rwa [hrotate, List.length_nil, List.rotate_zero] at ih
    | cons j js =>
      obtain ⟨rfl, hj⟩ := chosen_cons hc
      rw [hc] at hk hrotate
      cases k with
      | zero =>
        rw [Nat.zero_mod, hj]
        exact hk
      | succ k =>
        have ih := picks_rotate htlen hrest (hrests.2 t ht) hk
        have hmod : k % n < s.priorityQueue.length := by
          rw [hlen]
          exact Nat.mod_lt _ (Nat.zero_lt_of_lt i.isLt)
        rwa [hrotate, List.length_singleton, List.getElem?_rotate hmod, hlen, Nat.mod_add_mod] at ih

/-- A thread is in the priority queue once. -/
theorem Conserved.priority_inj (hs : Conserved s) {j k : ℕ} {x y : Fin n} (hx : s.priorityQueue[j]? = some x)
    (hy : s.priorityQueue[k]? = some y) : x = y ↔ j = k := by
  have hnodup : s.priorityQueue.Nodup := hs.priority.nodup_iff.mpr (List.nodup_finRange n)
  rw [← Option.some_inj, ← hx, ← hy]
  exact List.getElem?_inj (List.getElem?_eq_some_iff.mp hx).1 hnodup

theorem Conserved.length_priority (hs : Conserved s) : s.priorityQueue.length = n := by
  rw [hs.priority.length_eq, List.length_finRange]

/-! ### The queues of the threads -/

/-- The task that a step puts into a queue, with the thread of the queue. -/
def pushedTask (s : ThreadPool n) : Act n → List (Fin n × ℕ)
  | .owner => s.owner.pushes
  | _ => []

/-- The tasks that a run puts into queues, in their order. -/
def pushes (release : ℕ → ℕ) : ThreadPool n → List (Act n) → List (Fin n × ℕ) := trace (step release) pushedTask

theorem pushes_cons (ht : step release s a = some t) (acts : List (Act n)) :
    pushes release s (a :: acts) = s.pushedTask a ++ pushes release t acts := trace_cons pushedTask ht acts

/-- **A task is put at the end of the queue of its thread**, and a queue has no
other new task. -/
theorem tasks_next (h : Next release s a s') :
    (∀ x t, (x, t) ∈ s.pushedTask a → s'.tasks = Function.update s.tasks x ((s.tasks x).pushBack t)) ∧
      ∀ x t, t ∈ s'.tasks x → t ∈ s.tasks x ∨ (x, t) ∈ s.pushedTask a := by
  have hupdate : ∀ {i : Fin n} {q : ThreadSafeQueue ℕ}, q ⊆ s.tasks i →
      ∀ x t, t ∈ Function.update s.tasks i q x → t ∈ s.tasks x := fun {i q} hq x t ht => by
    rcases eq_or_ne x i with rfl | hx
    · rw [Function.update_self] at ht
      exact hq ht
    · rwa [Function.update_of_ne hx] at ht
  have hnone : s.pushedTask a = [] → (∀ x t, t ∈ s'.tasks x → t ∈ s.tasks x) →
      (∀ x t, (x, t) ∈ s.pushedTask a → s'.tasks = Function.update s.tasks x ((s.tasks x).pushBack t)) ∧
        ∀ x t, t ∈ s'.tasks x → t ∈ s.tasks x ∨ (x, t) ∈ s.pushedTask a := fun hp hs => by
    rw [hp]
    exact ⟨fun _ _ hx => absurd hx List.not_mem_nil, fun x t ht => Or.inl (hs x t ht)⟩
  cases h with
  | @push i u ho =>
    have hp : s.pushedTask .owner = [(i, u)] := congrArg Owner.pushes ho
    rw [hp]
    refine ⟨fun x t hx => ?_, fun x t ht => ?_⟩
    · obtain ⟨rfl, rfl⟩ := Prod.mk.inj (List.mem_singleton.mp hx)
      rfl
    · rcases eq_or_ne x i with rfl | hx
      · simp only [Function.update_self] at ht
        exact (List.mem_append.mp ht).imp id fun h => by rw [List.mem_singleton.mp h]; exact List.mem_singleton_self _
      · simp only [Function.update_of_ne hx] at ht
        exact Or.inl ht
  | @pop i t q _ hq => exact hnone rfl (hupdate (hq ▸ List.subset_cons_self t q))
  | @steal i j t q _ _ hq => exact hnone rfl (hupdate (hq ▸ List.subset_append_left q [t]))
  | count ho => exact hnone (congrArg Owner.pushes ho) fun _ _ ht => ht
  | raise ho => exact hnone (congrArg Owner.pushes ho) fun _ _ ht => ht
  | requestStop ho => exact hnone (congrArg Owner.pushes ho) fun _ _ ht => ht
  | wake ho => exact hnone (congrArg Owner.pushes ho) fun _ _ ht => ht
  | join ho => exact hnone (congrArg Owner.pushes ho) fun _ _ ht => ht
  | leave ho => exact hnone (congrArg Owner.pushes ho) fun _ _ ht => ht
  | _ => exact hnone rfl fun _ _ ht => ht

/-- A new task of a queue was put there in the run. -/
theorem mem_pushes : ∀ {acts : List (Act n)} {s : ThreadPool n}, run (step release) s acts = some s' →
    ∀ {x : Fin n} {t : ℕ}, t ∈ s'.tasks x → t ∈ s.tasks x ∨ (x, t) ∈ pushes release s acts
  | [], s, hrun, _, _, ht => by
    rw [Option.some.inj hrun]
    exact Or.inl ht
  | a :: acts, s, hrun, x, k, hk => by
    rw [run_cons] at hrun
    obtain ⟨t, ht, hrest⟩ := Option.bind_eq_some_iff.mp hrun
    rw [pushes_cons ht, List.mem_append, ← or_assoc]
    exact (mem_pushes hrest hk).imp ((tasks_next (next_of_step ht)).2 x k) id

/-- The owner puts a task that it has picked into its queue before it picks another. -/
theorem bound_next (h : Next release s a s') :
    s'.enqueued = s.enqueued + (s.chosen a).length ∧
      s.owner.bound ++ (s.chosen a).zipIdx s.enqueued = s.pushedTask a ++ s'.owner.bound := by
  cases h with
  | @pick i q ho hq =>
    cases hp : s.priorityQueue with
    | nil =>
      rw [hp] at hq
      cases hq
    | cons j r =>
      rw [hp] at hq
      obtain ⟨rfl, rfl⟩ := Prod.mk.inj (Option.some.inj hq)
      simp [chosen, pushedTask, Owner.bound, ho, hp]
  | drop ho hq =>
    cases hp : s.priorityQueue with
    | nil => simp [chosen, pushedTask, hp]
    | cons j r =>
      rw [hp] at hq
      cases hq
  | count ho => simp [chosen, pushedTask, Owner.bound, Owner.pushes, ho]
  | push ho => simp [chosen, pushedTask, Owner.bound, Owner.pushes, ho]
  | raise ho => simp [chosen, pushedTask, Owner.bound, Owner.pushes, ho]
  | destroy ho => simp [chosen, pushedTask, Owner.bound, ho]
  | requestStop ho => simp [chosen, pushedTask, Owner.bound, Owner.pushes, ho]
  | wake ho => simp [chosen, pushedTask, Owner.bound, Owner.pushes, ho]
  | join ho => simp [chosen, pushedTask, Owner.bound, Owner.pushes, ho]
  | leave ho => simp [chosen, pushedTask, Owner.bound, Owner.pushes, ho]
  | _ => exact ⟨rfl, List.append_nil _⟩

/-- **The tasks are put into the queues of the threads that are picked**, in the
order of the picks. -/
theorem pushes_eq : ∀ {acts : List (Act n)} {s : ThreadPool n}, run (step release) s acts = some s' →
    s.owner.bound ++ (picks release s acts).zipIdx s.enqueued = pushes release s acts ++ s'.owner.bound
  | [], s, hrun => by
    rw [Option.some.inj hrun]
    exact List.append_nil _
  | a :: acts, s, hrun => by
    rw [run_cons] at hrun
    obtain ⟨t, ht, hrest⟩ := Option.bind_eq_some_iff.mp hrun
    obtain ⟨hcount, hbound⟩ := bound_next (next_of_step ht)
    have hpicks : picks release s (a :: acts) = s.chosen a ++ picks release t acts := trace_cons chosen ht acts
    rw [hpicks, pushes_cons ht, List.zipIdx_append, ← List.append_assoc, hbound, ← hcount, List.append_assoc,
      pushes_eq hrest, List.append_assoc]

/-- The tasks of a pool have been enqueued. -/
theorem Conserved.lt_of_held (hs : Conserved s) {t : ℕ} (h : t ∈ s.held) : t < s.enqueued := by
  rwa [hs.held, Multiset.mem_range] at h

theorem Conserved.lt_of_mem_tasks (hs : Conserved s) {x : Fin n} {t : ℕ} (h : t ∈ s.tasks x) : t < s.enqueued := by
  refine hs.lt_of_held ?_
  have hqueue : t ∈ Places.total ThreadSafeQueue.bag s.tasks := Multiset.mem_sum.mpr ⟨x, Finset.mem_univ x, h⟩
  simp only [ThreadPool.held, Multiset.mem_add, hqueue, or_true, true_or]

/-- A task that is picked in the run is put into the queue of its thread. -/
theorem picks_of_mem_pushes (hs : Conserved s) {acts : List (Act n)} (hrun : run (step release) s acts = some s')
    {x : Fin n} {t : ℕ} (h : (x, t) ∈ pushes release s acts) (ht : s.enqueued ≤ t) :
    (picks release s acts)[t - s.enqueued]? = some x := by
  have hmem : (x, t) ∈ s.owner.bound ++ (picks release s acts).zipIdx s.enqueued := by
    rw [pushes_eq hrun]
    exact List.mem_append_left _ h
  rcases List.mem_append.mp hmem with hb | hp
  · -- what was picked before the run has a smaller number
    have howner : t ∈ s.owner.tasks := by
      cases ho : s.owner with
      | picked i u =>
        rw [ho] at hb
        exact Multiset.mem_singleton.mpr (Prod.mk.inj (List.mem_singleton.mp hb)).2
      | counted i u =>
        rw [ho] at hb
        exact Multiset.mem_singleton.mpr (Prod.mk.inj (List.mem_singleton.mp hb)).2
      | _ =>
        rw [ho] at hb
        cases hb
    exact absurd (hs.lt_of_held (by simp only [held, Multiset.mem_add, howner, true_or])) (Nat.not_lt.mpr ht)
  · exact (List.mk_mem_zipIdx_iff_le_and_getElem?_sub.mp hp).2

/-- **The tasks go round.** From any state that is reached, in a run in which no
thread comes to rest, two tasks go to the same thread if and only if their
places in the order of the tasks differ by a multiple of the number of threads;
so are they put into the queues of the threads, and no queue has other tasks of
the run. -/
theorem picks_in_turn {before acts : List (Act n)} (hbefore : run (step release) {} before = some s)
    (hrun : run (step release) s acts = some s')
    (hrests : Always (step release) (fun s a => s.rests a = false) s acts) :
    (∀ (j k : ℕ) (x y : Fin n), (picks release s acts)[j]? = some x → (picks release s acts)[k]? = some y →
      (x = y ↔ j % n = k % n)) ∧
    (∀ (t u : ℕ) (x y : Fin n), (x, t) ∈ pushes release s acts → (y, u) ∈ pushes release s acts →
      s.enqueued ≤ t → s.enqueued ≤ u → (x = y ↔ t % n = u % n)) ∧
    ∀ (t : ℕ) (x : Fin n), t ∈ s'.tasks x → s.enqueued ≤ t → (x, t) ∈ pushes release s acts := by
  have hs : Conserved s := conserved_of_run hbefore
  have hturn : ∀ (j k : ℕ) (x y : Fin n), (picks release s acts)[j]? = some x → (picks release s acts)[k]? = some y →
      (x = y ↔ j % n = k % n) := fun _ _ _ _ hx hy =>
    hs.priority_inj (picks_rotate hs.length_priority hrun hrests hx) (picks_rotate hs.length_priority hrun hrests hy)
  refine ⟨hturn, fun t u x y hx hy ht hu => ?_, fun t x ht hle => (mem_pushes hrun ht).resolve_left fun hold => ?_⟩
  · rw [hturn _ _ _ _ (picks_of_mem_pushes hs hrun hx ht) (picks_of_mem_pushes hs hrun hy hu)]
    obtain ⟨d, rfl⟩ := Nat.exists_eq_add_of_le ht
    obtain ⟨e, rfl⟩ := Nat.exists_eq_add_of_le hu
    rw [Nat.add_sub_cancel_left, Nat.add_sub_cancel_left]
    exact ⟨fun h => Nat.ModEq.add_left _ h, fun h => Nat.ModEq.add_left_cancel' _ h⟩
  · exact absurd (hs.lt_of_mem_tasks hold) (Nat.not_lt.mpr hle)

/-- Two tasks, without a step of a thread. -/
def twoTasks : List (Act 2) := [.enqueue, .owner, .owner, .owner, .enqueue]

theorem twoTasks_rests (s : ThreadPool 2) :
    Always (step Nat.succ) (fun s a => s.rests a = false) s twoTasks := by
  refine always_of_mem (fun a ha s => ?_) s
  simp only [twoTasks, List.mem_cons, List.not_mem_nil, or_false] at ha
  rcases ha with rfl | rfl | rfl | rfl | rfl <;> rfl

/-- Three tasks, without a step of a thread. -/
def threeTasks : List (Act 2) := (List.replicate 3 [Act.enqueue, .owner, .owner, .owner]).flatten

theorem threeTasks_rests (s : ThreadPool 2) :
    Always (step Nat.succ) (fun s a => s.rests a = false) s threeTasks := by
  refine always_of_mem (fun a ha s => ?_) s
  obtain ⟨call, hcall, ha⟩ := List.mem_flatten.mp ha
  rw [List.eq_of_mem_replicate hcall] at ha
  have hcall : a = .enqueue ∨ a = .owner := by simpa using ha
  rcases hcall with rfl | rfl <;> rfl

theorem picks_in_turn_two :
    pushes Nat.succ ({} : ThreadPool 2) threeTasks = [(0, 0), (1, 1), (0, 2)] ∧
      ((0 : Fin 2) = 1 ↔ 0 % 2 = 1 % 2) ∧ ((0 : Fin 2) = 0 ↔ 0 % 2 = 2 % 2) := by
  have hbefore : run (step Nat.succ) ({} : ThreadPool 2) [] = some {} := rfl
  have hpushes : pushes Nat.succ ({} : ThreadPool 2) threeTasks = [(0, 0), (1, 1), (0, 2)] := rfl
  obtain ⟨s', hrun⟩ : ∃ s', run (step Nat.succ) ({} : ThreadPool 2) threeTasks = some s' := ⟨_, rfl⟩
  have hqueues := (picks_in_turn hbefore hrun (threeTasks_rests {})).2.1
  rw [hpushes] at hqueues
  exact ⟨hpushes, hqueues 0 1 0 1 (by decide) (by decide) le_rfl (Nat.zero_le _),
    hqueues 0 2 0 0 (by decide) (by decide) le_rfl (Nat.zero_le _)⟩

/-- **The thread that came to rest last gets the next task**, and every `n`-th
behind it until any thread, that one included, comes to rest. -/
theorem picks_after_rest {before acts : List (Act n)} (hbefore : run (step release) {} before = some s) {i : Fin n}
    (hi : s.threads i = .rotating) (ht : step release s (.thread i) = some t)
    (hrun : run (step release) t acts = some s') (hrests : Always (step release) (fun s a => s.rests a = false) t acts)
    {k : ℕ} {x : Fin n} (hx : (picks release t acts)[k]? = some x) : x = i ↔ k % n = 0 := by
  have hs : Conserved s := conserved_of_run hbefore
  have hst : Conserved t := hs.next (next_of_step ht)
  have hfront : t.priorityQueue[0]? = some i := by
    simp only [step, threadStep, hi, Option.some_inj] at ht
    rw [← ht]
    rfl
  exact hst.priority_inj (picks_rotate hst.length_priority hrun hrests hx) hfront

theorem picks_after_rest_two :
    ∃ s t : ThreadPool 2, run (step Nat.succ) {} (.enqueue :: List.replicate 3 .owner ++ List.replicate 8 (.thread 0)) =
        some s ∧ step Nat.succ s (.thread 0) = some t ∧ picks Nat.succ t twoTasks = [0, 1] ∧
      ((1 : Fin 2) = 0 ↔ 1 % 2 = 0) := by
  obtain ⟨s, t, s', hbefore, hi, ht, hrun, hpicks⟩ : ∃ s t s' : ThreadPool 2,
      run (step Nat.succ) {} (.enqueue :: List.replicate 3 .owner ++ List.replicate 8 (.thread 0)) = some s ∧
        s.threads 0 = .rotating ∧ step Nat.succ s (.thread 0) = some t ∧ run (step Nat.succ) t twoTasks = some s' ∧
        picks Nat.succ t twoTasks = [0, 1] := ⟨_, _, _, rfl, rfl, rfl, rfl, rfl⟩
  exact ⟨s, t, hbefore, ht, hpicks, picks_after_rest hbefore hi ht hrun (twoTasks_rests t) (by rw [hpicks]; rfl)⟩

end ThreadPool

end NiceHttp
