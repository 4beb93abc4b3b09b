/-
# No task is lost

What the pool keeps in every run. Each enqueued task is in one place: in the
owner's hands, in one queue, in one thread's hands, or finished
(`Conserved.held`). The counter `pending_tasks_` is the number of tasks that the
owner has announced and no thread has taken off it again (`Conserved.pending`),
so it is 0 only if all queues are empty. A thread whose queue is not empty is
awake, or its semaphore is up or about to be raised (`Sound.alert`): this is
where a wakeup could be lost, between the empty queue that a thread saw and its
next wait. A pool with one thread runs the tasks in their order
(`one_thread_in_order`); with two a thread may steal the last one first.

Key definitions: `ThreadPool.held`, `ThreadPool.announced`,
`ThreadPool.Conserved`, `ThreadPool.Alert`, `ThreadPool.Sound`.
Key theorems: `ThreadPool.Sound.next`, `ThreadPool.sound_of_run`,
`ThreadPool.every_task_once`, `ThreadPool.one_thread_in_order`.
-/
import NiceHttp.ThreadPool
import NiceHttp.Lib.Places

namespace NiceHttp

open Places Run

/-- The tasks of a queue. -/
def ThreadSafeQueue.bag (q : ThreadSafeQueue ℕ) : Multiset ℕ := q

theorem ThreadSafeQueue.bag_cons (t : ℕ) (q : ThreadSafeQueue ℕ) : bag (t :: q) = bag q + {t} := by
  rw [bag, bag, ← Multiset.cons_coe, ← Multiset.singleton_add, add_comm]

theorem ThreadSafeQueue.bag_concat (t : ℕ) (q : ThreadSafeQueue ℕ) : bag (q ++ [t]) = bag q + {t} :=
  (Multiset.coe_add q [t]).symm

theorem ThreadSafeQueue.count_bag (t : ℕ) (q : ThreadSafeQueue ℕ) : (bag q).count t = q.count t :=
  Multiset.coe_count t q

/-- The task in the owner's hands. -/
def Owner.tasks {n : ℕ} : Owner n → Multiset ℕ
  | picked _ t => {t}
  | counted _ t => {t}
  | _ => 0

/-- The task in a thread's hands. -/
def Place.tasks : Place → Multiset ℕ
  | taken t _ => {t}
  | running t _ => {t}
  | _ => 0

/-- The task that the owner has announced and not yet put into a queue. -/
def Owner.announced {n : ℕ} : Owner n → ℕ
  | counted _ _ => 1
  | _ => 0

/-- The task that a thread has taken and not yet taken off the counter. -/
def Place.announced : Place → ℕ
  | taken _ _ => 1
  | _ => 0

/-- The thread will look at its queue, or at the counter, before it waits. -/
def Place.isAwake : Place → Bool
  | popping => true
  | taken _ _ => true
  | running _ _ => true
  | stealing _ => true
  | checking => true
  | _ => false

namespace ThreadPool

variable {n : ℕ} {release : ℕ → ℕ} {s s' : ThreadPool n} {a : Act n}

/-- The tasks of all places. -/
def held (s : ThreadPool n) : Multiset ℕ :=
  s.owner.tasks + total ThreadSafeQueue.bag s.tasks + total Place.tasks s.threads +
    s.finished

/-- The tasks that are announced and not taken off the counter. -/
def announced (s : ThreadPool n) : ℕ :=
  s.owner.announced + total List.length s.tasks + total Place.announced s.threads

/-- The thread will look at its queue: its semaphore is up or about to be
raised, or it is awake. -/
def Alert (s : ThreadPool n) (i : Fin n) : Prop :=
  s.signal i ≠ 0 ∨ s.owner = .pushed i ∨ (s.threads i).isAwake = true

/-- Every task is in one place, the counter counts what is announced, and the
priority queue has every thread once. -/
structure Conserved (s : ThreadPool n) : Prop where
  held : s.held = Multiset.range s.enqueued
  pending : s.pendingTasks = s.announced
  priority : s.priorityQueue.Perm (List.finRange n)

/-- What the pool keeps. -/
structure Sound (s : ThreadPool n) : Prop extends Conserved s where
  alert : ∀ i, s.tasks i ≠ [] → s.Alert i

/-! ### The tasks -/

/-- A thread that changes its place with the same tasks in its hands. -/
theorem held_go {i : Fin n} {p : Place} (h : p.tasks = (s.threads i).tasks) : (s.go i p).held = s.held := by
  unfold held go
  rw [total_keep h]

/-- **A step adds the task that it enqueues, and loses none.** -/
theorem held_next (h : Next release s a s') :
    s'.held + Multiset.range s.enqueued = s.held + Multiset.range s'.enqueued := by
  cases h with
  | @pick i q ho hq =>
    simp only [held, ho, Owner.tasks, Multiset.range_succ, ← Multiset.singleton_add]
    abel
  | drop => rfl
  | count ho => simp only [held, ho, Owner.tasks]
  | @push i t ho =>
    have hput : total ThreadSafeQueue.bag (Function.update s.tasks i (s.tasks i ++ [t])) =
        total ThreadSafeQueue.bag s.tasks + {t} :=
      total_put (ThreadSafeQueue.bag_concat t (s.tasks i))
    simp only [held, ho, Owner.tasks, hput]
    abel
  | raise ho => simp only [held, ho, Owner.tasks]
  | destroy ho => simp only [held, ho, Owner.tasks]
  | requestStop ho => simp only [held, ho, Owner.tasks]
  | wake ho => simp only [held, ho, Owner.tasks]
  | join ho => simp only [held, ho, Owner.tasks]
  | leave ho => simp only [held, ho, Owner.tasks]
  | acquire hp => exact congrArg (· + _) (held_go (s := s) (by rw [hp]; rfl))
  | @pop i t q hp hq =>
    have htake : total ThreadSafeQueue.bag s.tasks =
        total ThreadSafeQueue.bag (Function.update s.tasks i q) + {t} :=
      total_take (by rw [hq, ThreadSafeQueue.bag_cons])
    have hput : total Place.tasks (s.go i (.taken t false)).threads = total Place.tasks s.threads + {t} :=
      total_put (by rw [hp]; exact (zero_add _).symm)
    simp only [held, htake, hput]
    simp only [go]
    abel
  | empty hp => exact congrArg (· + _) (held_go (by rw [hp]; rfl))
  | @steal i j t q hp _ hq =>
    have htake : total ThreadSafeQueue.bag s.tasks =
        total ThreadSafeQueue.bag (Function.update s.tasks (victim i j) q) + {t} :=
      total_take (by rw [hq, ThreadSafeQueue.bag_concat])
    have hput : total Place.tasks (s.go i (.taken t true)).threads = total Place.tasks s.threads + {t} :=
      total_put (by rw [hp]; exact (zero_add _).symm)
    simp only [held, htake, hput]
    simp only [go]
    abel
  | miss hp => exact congrArg (· + _) (held_go (by rw [hp]; rfl))
  | giveUp hp => exact congrArg (· + _) (held_go (by rw [hp]; rfl))
  | start hp => exact congrArg (· + _) (held_go (s := s) (by rw [hp]; rfl))
  | @finish i t stolen hp =>
    have htake : total Place.tasks s.threads =
        total Place.tasks (s.go i (if stolen then .checking else .popping)).threads + {t} :=
      total_take (by rw [hp]; cases stolen <;> exact (zero_add _).symm)
    simp only [held, htake, ← Multiset.coe_add, Multiset.coe_singleton]
    simp only [go]
    abel
  | again hp => exact congrArg (· + _) (held_go (by rw [hp]; rfl))
  | rest hp => exact congrArg (· + _) (held_go (by rw [hp]; rfl))
  | rotate hp => exact congrArg (· + _) (held_go (s := s) (by rw [hp]; rfl))
  | exit hp => exact congrArg (· + _) (held_go (by rw [hp]; rfl))
  | sleep hp => exact congrArg (· + _) (held_go (by rw [hp]; rfl))

/-! ### The counter -/

theorem announced_go {i : Fin n} {p : Place} (h : p.announced = (s.threads i).announced) :
    (s.go i p).announced = s.announced := by
  unfold announced go
  rw [total_keep h]

/-- **The counter goes with the announced tasks.** -/
theorem announced_next (h : Next release s a s') :
    s'.pendingTasks + s.announced = s.pendingTasks + s'.announced := by
  cases h with
  | pick ho => simp only [announced, ho, Owner.announced]
  | drop => rfl
  | count ho =>
    simp only [announced, ho, Owner.announced]
    omega
  | @push i t ho =>
    have hput : total List.length (Function.update s.tasks i (s.tasks i ++ [t])) = total List.length s.tasks + 1 :=
      total_put List.length_append
    simp only [announced, ho, Owner.announced, hput]
    omega
  | raise ho => simp only [announced, ho, Owner.announced]
  | destroy ho => simp only [announced, ho, Owner.announced]
  | requestStop ho => simp only [announced, ho, Owner.announced]
  | wake ho => simp only [announced, ho, Owner.announced]
  | join ho => simp only [announced, ho, Owner.announced]
  | leave ho => simp only [announced, ho, Owner.announced]
  | acquire hp =>
    have hgo := announced_go (s := s) (p := .popping) (by rw [hp]; rfl)
    exact congrArg (fun k : ℕ => s.pendingTasks + k) hgo.symm
  | @pop i t q hp hq =>
    have htake : total List.length s.tasks = total List.length (Function.update s.tasks i q) + 1 :=
      total_take (by rw [hq]; rfl)
    have hput : total Place.announced (s.go i (.taken t false)).threads = total Place.announced s.threads + 1 :=
      total_put (by rw [hp]; rfl)
    simp only [announced, htake, hput]
    simp only [go]
    omega
  | empty hp => rw [announced_go (by rw [hp]; rfl)]; rfl
  | @steal i j t q hp _ hq =>
    have htake : total List.length s.tasks = total List.length (Function.update s.tasks (victim i j) q) + 1 :=
      total_take (by rw [hq, List.length_append]; rfl)
    have hput : total Place.announced (s.go i (.taken t true)).threads = total Place.announced s.threads + 1 :=
      total_put (by rw [hp]; rfl)
    simp only [announced, htake, hput]
    simp only [go]
    omega
  | miss hp => rw [announced_go (by rw [hp]; rfl)]; rfl
  | giveUp hp => rw [announced_go (by rw [hp]; rfl)]; rfl
  | @start i t stolen hp =>
    have htake : total Place.announced s.threads = total Place.announced (s.go i (.running t stolen)).threads + 1 :=
      total_take (by rw [hp]; rfl)
    simp only [announced, htake]
    simp only [go]
    omega
  | @finish i t stolen hp =>
    have hgo := announced_go (s := s) (p := if stolen then .checking else .popping)
      (by rw [hp]; cases stolen <;> rfl)
    exact congrArg (fun k : ℕ => s.pendingTasks + k) hgo.symm
  | again hp => rw [announced_go (by rw [hp]; rfl)]; rfl
  | rest hp => rw [announced_go (by rw [hp]; rfl)]; rfl
  | rotate hp =>
    have hgo := announced_go (s := s) (p := .testing) (by rw [hp]; rfl)
    exact congrArg (fun k : ℕ => s.pendingTasks + k) hgo.symm
  | exit hp => rw [announced_go (by rw [hp]; rfl)]; rfl
  | sleep hp => rw [announced_go (by rw [hp]; rfl)]; rfl

/-- With nothing announced all queues are empty. -/
theorem tasks_of_announced (h : s.announced = 0) (i : Fin n) : s.tasks i = [] := by
  have hlen := le_total List.length s.tasks i
  unfold announced at h
  exact List.length_eq_zero_iff.mp (by omega)

/-! ### The priority queue -/

theorem priority_next (hs : s.priorityQueue.Perm (List.finRange n)) (h : Next release s a s') :
    s'.priorityQueue.Perm (List.finRange n) := by
  cases h with
  | pick _ hq => exact (ThreadSafeQueue.copyFront_perm hq).trans hs
  | @rotate i _ =>
    exact (ThreadSafeQueue.rotateToFront_perm (hs.mem_iff.mpr (List.mem_finRange i))).trans hs
  | _ => exact hs

/-! ### The wakeups -/

theorem Alert.mono {j : Fin n} (h : s.Alert j) (hsignal : s.signal j ≠ 0 → s'.signal j ≠ 0)
    (howner : s.owner = .pushed j → s'.Alert j)
    (hthread : (s.threads j).isAwake = true → (s'.threads j).isAwake = true) : s'.Alert j := by
  rcases h with h | h | h
  · exact Or.inl (hsignal h)
  · exact howner h
  · exact Or.inr (Or.inr (hthread h))

/-- A thread that stays awake, or was asleep, leaves the others as they are. -/
theorem isAwake_go {i j : Fin n} {p : Place} (hp : (s.threads i).isAwake = true → p.isAwake = true)
    (h : (s.threads j).isAwake = true) : ((s.go i p).threads j).isAwake = true := by
  by_cases hij : j = i
  · subst hij
    rw [go_threads_self]
    exact hp h
  · rw [go_threads_ne s hij]
    exact h

theorem Alert.go {i j : Fin n} {p : Place} (h : s.Alert j)
    (hp : (s.threads i).isAwake = true → p.isAwake = true) : (s.go i p).Alert j :=
  h.mono id (fun ho => Or.inr (Or.inl ho)) (isAwake_go hp)

/-- Raising a semaphore makes its thread alert. -/
theorem alert_raise (hrelease : ∀ c, release c ≠ 0) {o : Owner n} {i : Fin n} (ho : ∀ j, s.owner = .pushed j → j = i)
    {j : Fin n} (h : s.Alert j) :
    Alert { s with signal := Function.update s.signal i (release (s.signal i)), owner := o } j := by
  by_cases hij : j = i
  · subst hij
    left
    simp only [Function.update_self]
    exact hrelease _
  · refine h.mono (fun hs => ?_) (fun hj => absurd (ho j hj) hij) id
    simp only [Function.update_of_ne hij]
    exact hs

/-- **No wakeup is lost.** -/
theorem alert_next (hrelease : ∀ c, release c ≠ 0) (hs : Sound s) (h : Next release s a s') (j : Fin n)
    (hj : s'.tasks j ≠ []) : s'.Alert j := by
  have hno : ∀ {o : Owner n}, s.owner = o → (∀ k, o ≠ .pushed k) → s.owner = .pushed j → s'.Alert j :=
    fun ho hne hp => absurd (ho.symm.trans hp) (hne j)
  cases h with
  | pick ho => exact (hs.alert j hj).mono id (hno ho nofun) id
  | drop => exact hs.alert j hj
  | count ho => exact (hs.alert j hj).mono id (hno ho nofun) id
  | @push i t ho =>
    by_cases hij : j = i
    · subst hij
      exact Or.inr (Or.inl rfl)
    · simp only [Function.update_of_ne hij] at hj
      exact (hs.alert j hj).mono id (hno ho nofun) id
  | @raise i ho => exact alert_raise hrelease (fun k hk => Owner.pushed.inj (hk.symm.trans ho)) (hs.alert j hj)
  | destroy ho => exact (hs.alert j hj).mono id (hno ho nofun) id
  | requestStop ho => exact (hs.alert j hj).mono id (hno ho nofun) id
  | wake ho => exact alert_raise hrelease (fun k hk => absurd (hk.symm.trans ho) nofun) (hs.alert j hj)
  | join ho => exact (hs.alert j hj).mono id (hno ho nofun) id
  | leave ho => exact (hs.alert j hj).mono id (hno ho nofun) id
  | @acquire i hp =>
    by_cases hij : j = i
    · subst hij
      exact Or.inr (Or.inr (congrArg Place.isAwake (go_threads_self s j .popping)))
    · refine (hs.alert j hj).mono (fun hsig => ?_) (fun ho => Or.inr (Or.inl ho)) (isAwake_go fun _ => rfl)
      simp only [Function.update_of_ne hij]
      exact hsig
  | @pop i t q hp hq =>
    refine (hs.alert j fun he => hj ?_).mono id (fun ho => Or.inr (Or.inl ho)) (isAwake_go fun _ => rfl)
    have hij : j ≠ i := by
      rintro rfl
      rw [he] at hq
      cases hq
    simp only [Function.update_of_ne hij]
    exact he
  | empty => exact (hs.alert j hj).go fun _ => rfl
  | @steal i k t q hp _ hq =>
    refine (hs.alert j fun he => hj ?_).mono id (fun ho => Or.inr (Or.inl ho)) (isAwake_go fun _ => rfl)
    have hjv : j ≠ victim i k := by
      rintro rfl
      rw [he] at hq
      exact List.append_ne_nil_of_right_ne_nil q (List.cons_ne_nil t []) hq.symm
    simp only [Function.update_of_ne hjv]
    exact he
  | miss => exact (hs.alert j hj).go fun _ => rfl
  | giveUp => exact (hs.alert j hj).go fun _ => rfl
  | start => exact (hs.alert j hj).mono id (fun ho => Or.inr (Or.inl ho)) (isAwake_go fun _ => rfl)
  | @finish i t stolen hp =>
    refine (hs.alert j hj).mono id (fun ho => Or.inr (Or.inl ho)) (isAwake_go fun _ => ?_)
    cases stolen
    · rfl
    · rfl
  | again => exact (hs.alert j hj).go fun _ => rfl
  | rest hp hle =>
    -- the counter is 0, so there is no queue to be alert for
    have hzero : s.announced = 0 := by
      have := hs.pending
      omega
    exact absurd (tasks_of_announced hzero j) hj
  | rotate hp => exact (hs.alert j hj).mono id (fun ho => Or.inr (Or.inl ho)) (isAwake_go fun h => by rw [hp] at h; cases h)
  | exit hp => exact (hs.alert j hj).go fun h => by rw [hp] at h; cases h
  | sleep hp => exact (hs.alert j hj).go fun h => by rw [hp] at h; cases h

/-! ### Every run -/

/-- **A step keeps every task in one place.** -/
theorem Conserved.next (hs : Conserved s) (h : Next release s a s') : Conserved s' := by
  refine ⟨?_, ?_, priority_next hs.priority h⟩
  · have hheld := held_next h
    rw [hs.held, add_comm] at hheld
    exact add_left_cancel hheld
  · have hannounced := announced_next h
    have := hs.pending
    omega

theorem conserved_init : Conserved ({} : ThreadPool n) where
  held := by simp [ThreadPool.held, Owner.tasks, total, Place.tasks, ThreadSafeQueue.bag]
  pending := by simp [announced, Owner.announced, total, Place.announced]
  priority := .refl _

/-- **A step keeps the pool sound.** -/
theorem Sound.next (hrelease : ∀ c, release c ≠ 0) (hs : Sound s) (h : Next release s a s') : Sound s' :=
  ⟨hs.toConserved.next h, fun j hj => alert_next hrelease hs h j hj⟩

theorem sound_init : Sound ({} : ThreadPool n) := ⟨conserved_init, fun _ hi => absurd rfl hi⟩

theorem conserved_of_run {acts : List (Act n)} (hrun : run (step release) {} acts = some s) : Conserved s :=
  kept (fun hs h => hs.next (next_of_step h)) conserved_init hrun

/-- **The pool is sound in every run.** -/
theorem sound_of_run (hrelease : ∀ c, release c ≠ 0) {acts : List (Act n)}
    (hrun : run (step release) {} acts = some s) : Sound s :=
  kept (fun hs h => hs.next hrelease (next_of_step h)) sound_init hrun

/-! ### A task that runs -/

/-- A thread runs the task. -/
def Runs (s : ThreadPool n) (k : ℕ) : Prop := ∃ i stolen, s.threads i = .running k stolen

/-- A thread that runs a task goes on with it until it has finished. -/
theorem running_next {i : Fin n} {k : ℕ} {stolen : Bool} (hi : s.threads i = .running k stolen)
    (h : Next release s a s') : s'.threads i = .running k stolen ∨ k ∈ s'.finished := by
  have hgo : ∀ {j : Fin n} {o p : Place}, s.threads j = o → (∀ k b, o ≠ .running k b) →
      (s.go j p).threads i = .running k stolen := by
    rintro j o p rfl hne
    rw [go_threads_ne s (by rintro rfl; exact hne _ _ hi)]
    exact hi
  cases h with
  | acquire hp => exact Or.inl (hgo hp nofun)
  | pop hp => exact Or.inl (hgo hp nofun)
  | empty hp => exact Or.inl (hgo hp nofun)
  | steal hp => exact Or.inl (hgo hp nofun)
  | miss hp => exact Or.inl (hgo hp nofun)
  | giveUp hp => exact Or.inl (hgo hp nofun)
  | start hp => exact Or.inl (hgo hp nofun)
  | @finish j t b hp =>
    by_cases hij : i = j
    · subst hij
      obtain ⟨rfl, -⟩ := Place.running.inj (hp.symm.trans hi)
      exact Or.inr (List.mem_append_right _ (List.mem_singleton_self _))
    · exact Or.inl ((go_threads_ne s hij _).trans hi)
  | again hp => exact Or.inl (hgo hp nofun)
  | rest hp => exact Or.inl (hgo hp nofun)
  | rotate hp => exact Or.inl (hgo hp nofun)
  | exit hp => exact Or.inl (hgo hp nofun)
  | sleep hp => exact Or.inl (hgo hp nofun)
  | _ => exact Or.inl hi

/-- A task that has finished was running before. -/
theorem finished_next (h : Next release s a s') :
    s'.finished = s.finished ∨
      ∃ i t stolen, a = .thread i ∧ s.threads i = .running t stolen ∧ s'.finished = s.finished ++ [t] := by
  cases h with
  | finish hp => exact Or.inr ⟨_, _, _, rfl, hp, rfl⟩
  | _ => exact Or.inl rfl

/-- A task that has finished stays so. -/
theorem mem_finished_next {k : ℕ} (hk : k ∈ s.finished) (h : Next release s a s') : k ∈ s'.finished := by
  rcases finished_next h with he | ⟨_, _, _, _, _, he⟩
  · exact he ▸ hk
  · exact he ▸ List.mem_append_left _ hk

/-- Only the owner adds a task. -/
theorem enqueued_next (h : Next release s a s') (ha : a ≠ .enqueue) : s'.enqueued = s.enqueued := by
  cases h with
  | pick => exact absurd rfl ha
  | _ => rfl

/-- With a thread the owner adds a task. -/
theorem enqueue_next (hs : Conserved s) (hn : 0 < n) (h : Next release s .enqueue s') :
    s'.enqueued = s.enqueued + 1 := by
  cases h with
  | pick => rfl
  | drop _ hq =>
    have hlen := hs.priority.length_eq
    rw [List.length_finRange] at hlen
    cases hp : s.priorityQueue with
    | nil =>
      rw [hp] at hlen
      exact absurd hlen.symm (Nat.pos_iff_ne_zero.mp hn)
    | cons i q =>
      rw [hp] at hq
      cases hq

/-- A thread that runs a task runs it alone, and the task has not finished. -/
theorem Conserved.running (hs : Conserved s) {i : Fin n} {k : ℕ} {stolen : Bool}
    (h : s.threads i = .running k stolen) :
    k < s.enqueued ∧ k ∉ s.finished ∧ ∀ j b, s.threads j = .running k b → j = i := by
  have htasks : ∀ {j b}, s.threads j = .running k b → (s.threads j).tasks = {k} := fun hj => by rw [hj]; rfl
  -- the hands of thread `i`, and those of the others
  have htake : total Place.tasks s.threads = total Place.tasks (s.go i .waiting).threads + {k} :=
    total_take (by rw [htasks h]; exact (zero_add _).symm)
  have hcount := congrArg (Multiset.count k) hs.held
  rw [ThreadPool.held, htake, Multiset.count_add, Multiset.count_add, Multiset.count_add, Multiset.count_add,
    Multiset.count_singleton_self, Multiset.coe_count, ← Multiset.coe_range, Multiset.coe_count,
    List.count_range] at hcount
  refine ⟨?_, fun hk => ?_, fun j b hj => ?_⟩
  · by_contra hlt
    rw [if_neg hlt] at hcount
    omega
  · have hpos := List.count_pos_iff.mpr hk
    split at hcount <;> omega
  · by_contra hji
    have hle := Multiset.count_le_of_le k (le_total Place.tasks (s.go i .waiting).threads j)
    rw [go_threads_ne s hji, htasks hj, Multiset.count_singleton_self] at hle
    split at hcount <;> omega

/-! ### Every task once -/

/-- **Every enqueued task is in one place.** In every run each task that was
enqueued is once in the hands of the owner, in a queue, in the hands of a
thread or among the finished, and no other task is anywhere; the counter
`pending_tasks_` is the number of those that are announced and not taken off
it; and the priority queue has every thread once. -/
theorem every_task_once {acts : List (Act n)} (hrun : run (step release) {} acts = some s) :
    (∀ t, s.owner.tasks.count t + ∑ i, (s.tasks i).count t + ∑ i, (s.threads i).tasks.count t +
      s.finished.count t = if t < s.enqueued then 1 else 0) ∧
    s.pendingTasks = s.announced ∧ s.priorityQueue.Perm (List.finRange n) := by
  have hs : Conserved s := conserved_of_run hrun
  refine ⟨fun t => ?_, hs.pending, hs.priority⟩
  have hcount := congrArg (Multiset.count t) hs.held
  rw [held, Multiset.count_add, Multiset.count_add, Multiset.count_add, total, total, Multiset.count_sum',
    Multiset.count_sum', Multiset.coe_count, ← Multiset.coe_range, Multiset.coe_count, List.count_range] at hcount
  simp only [ThreadSafeQueue.count_bag] at hcount
  exact hcount

/-- Two tasks in two queues: thread `i` runs its own and then steals the other
one, and both threads go back to sleep. -/
def stolenTask (i j : Fin n) : List (Act n) :=
  List.flatten [[.enqueue, .owner, .owner, .owner], [.enqueue, .owner, .owner, .owner], List.replicate 11 (.thread i),
    List.replicate 7 (.thread j)]

/-- In the middle of the run task 1 has been stolen, and at its end both are finished. -/
theorem every_task_once_stolen :
    ∃ t s, run (step Nat.succ) ({} : ThreadPool 2) ((stolenTask 0 1).take 14) = some t ∧ t.threads 0 = .taken 1 true ∧
      (∀ k, t.owner.tasks.count k + ∑ i, (t.tasks i).count k + ∑ i, (t.threads i).tasks.count k +
        t.finished.count k = if k < t.enqueued then 1 else 0) ∧
      run (step Nat.succ) ({} : ThreadPool 2) (stolenTask 0 1) = some s ∧ s.finished = [0, 1] ∧
      (∀ k, s.owner.tasks.count k + ∑ i, (s.tasks i).count k + ∑ i, (s.threads i).tasks.count k +
        s.finished.count k = if k < s.enqueued then 1 else 0) ∧
      s.pendingTasks = s.announced ∧ s.priorityQueue.Perm (List.finRange 2) := by
  obtain ⟨t, ht, htaken⟩ : ∃ t, run (step Nat.succ) ({} : ThreadPool 2) ((stolenTask 0 1).take 14) = some t ∧
      t.threads 0 = .taken 1 true := ⟨_, rfl, rfl⟩
  obtain ⟨s, hrun, hfinished⟩ : ∃ s, run (step Nat.succ) ({} : ThreadPool 2) (stolenTask 0 1) = some s ∧
      s.finished = [0, 1] := ⟨_, rfl, rfl⟩
  exact ⟨t, s, ht, htaken, (every_task_once ht).1, hrun, hfinished, every_task_once hrun⟩

/-- A pool that has taken a task, run it and gone back to sleep. -/
def oneTask : List (Act 1) :=
  [.enqueue, .owner, .owner, .owner] ++ List.replicate 9 (.thread 0)

end ThreadPool

/-! ### One thread -/

/-- The task in the owner's hands, as a list. -/
def Owner.hands {n : ℕ} : Owner n → List ℕ
  | picked _ t => [t]
  | counted _ t => [t]
  | _ => []

/-- The task in a thread's hands, as a list. -/
def Place.hands : Place → List ℕ
  | taken t _ => [t]
  | running t _ => [t]
  | _ => []

namespace ThreadPool

section One

variable {release : ℕ → ℕ} {s s' : ThreadPool 1} {a : Act 1}

/-- The finished tasks, the one in the thread's hands, those in its queue and the
one in the owner's hands are the enqueued ones, in their order. -/
structure InOrder (s : ThreadPool 1) : Prop where
  order : s.finished ++ (s.threads 0).hands ++ s.tasks 0 ++ s.owner.hands = List.range s.enqueued
  turn : ∀ j, s.threads 0 = .stealing j → 1 ≤ j

/-- A step of the owner. -/
theorem InOrder.owner (hs : InOrder s) (hthreads : s'.threads = s.threads)
    (horder : s'.finished ++ (s.threads 0).hands ++ s'.tasks 0 ++ s'.owner.hands = List.range s'.enqueued) :
    InOrder s' := ⟨by rw [hthreads]; exact horder, by rw [hthreads]; exact hs.turn⟩

/-- A step of the thread. -/
theorem InOrder.thread {p : Place} (hthreads : s'.threads = (s.go 0 p).threads)
    (horder : s'.finished ++ p.hands ++ s'.tasks 0 ++ s'.owner.hands = List.range s'.enqueued)
    (hturn : ∀ j, p = .stealing j → 1 ≤ j) : InOrder s' := by
  have hp : s'.threads 0 = p := by rw [hthreads, go_threads_self]
  exact ⟨by rw [hp]; exact horder, by rw [hp]; exact hturn⟩

/-- **A step of a pool with one thread keeps the order.** -/
theorem InOrder.next (hs : InOrder s) (h : Next release s a s') : InOrder s' := by
  have horder := hs.order
  cases h with
  | pick ho =>
    refine hs.owner rfl ?_
    rw [ho] at horder
    simp only [Owner.hands, List.append_nil] at horder ⊢
    rw [horder, List.range_succ]
  | drop => exact hs
  | count ho => exact hs.owner rfl (by rw [ho] at horder; exact horder)
  | @push i t ho =>
    refine hs.owner rfl ?_
    rw [ho] at horder
    rw [Fin.fin_one_eq_zero i]
    simpa [Owner.hands] using horder
  | raise ho => exact hs.owner rfl (by rw [ho] at horder; exact horder)
  | destroy ho => exact hs.owner rfl (by rw [ho] at horder; exact horder)
  | requestStop ho => exact hs.owner rfl (by rw [ho] at horder; exact horder)
  | wake ho => exact hs.owner rfl (by rw [ho] at horder; exact horder)
  | join ho => exact hs.owner rfl (by rw [ho] at horder; exact horder)
  | leave ho => exact hs.owner rfl (by rw [ho] at horder; exact horder)
  | @acquire i hp =>
    obtain rfl := Fin.fin_one_eq_zero i
    rw [hp] at horder
    exact .thread rfl horder nofun
  | @pop i t q hp hq =>
    obtain rfl := Fin.fin_one_eq_zero i
    rw [hp, hq] at horder
    exact .thread rfl (by simpa [Place.hands, go] using horder) nofun
  | @empty i hp =>
    obtain rfl := Fin.fin_one_eq_zero i
    rw [hp] at horder
    exact .thread rfl horder fun j hj => (Place.stealing.inj hj).le
  | @steal i j t q hp hj =>
    -- there is no other queue
    obtain rfl := Fin.fin_one_eq_zero i
    have := hs.turn j hp
    omega
  | @miss i j hp hj =>
    obtain rfl := Fin.fin_one_eq_zero i
    have := hs.turn j hp
    omega
  | @giveUp i j hp =>
    obtain rfl := Fin.fin_one_eq_zero i
    rw [hp] at horder
    exact .thread rfl horder nofun
  | @start i t stolen hp =>
    obtain rfl := Fin.fin_one_eq_zero i
    rw [hp] at horder
    exact .thread rfl horder nofun
  | @finish i t stolen hp =>
    obtain rfl := Fin.fin_one_eq_zero i
    rw [hp] at horder
    refine .thread rfl ?_ (by cases stolen <;> nofun)
    cases stolen <;> simpa [Place.hands, go] using horder
  | @again i hp =>
    obtain rfl := Fin.fin_one_eq_zero i
    rw [hp] at horder
    exact .thread rfl horder nofun
  | @rest i hp =>
    obtain rfl := Fin.fin_one_eq_zero i
    rw [hp] at horder
    exact .thread rfl horder nofun
  | @rotate i hp =>
    obtain rfl := Fin.fin_one_eq_zero i
    rw [hp] at horder
    exact .thread rfl horder nofun
  | @exit i hp =>
    obtain rfl := Fin.fin_one_eq_zero i
    rw [hp] at horder
    exact .thread rfl horder nofun
  | @sleep i hp =>
    obtain rfl := Fin.fin_one_eq_zero i
    rw [hp] at horder
    exact .thread rfl horder nofun

theorem inOrder_init : InOrder ({} : ThreadPool 1) := ⟨rfl, fun j hj => by cases hj⟩

/-- **A pool with one thread runs the tasks in the order of their enqueueing.**
In every run the finished tasks are the first of those that were enqueued, and
the one that runs is the next. -/
theorem one_thread_in_order {acts : List (Act 1)} (hrun : run (step release) {} acts = some s) :
    s.finished = List.range s.finished.length ∧
      ∀ t stolen, s.threads 0 = .running t stolen → t = s.finished.length := by
  have hs : InOrder s := kept (fun hs h => hs.next (next_of_step h)) inOrder_init hrun
  have horder := hs.order
  rw [List.append_assoc, List.append_assoc] at horder
  have hlen : s.finished.length ≤ s.enqueued := by
    have hlength := congrArg List.length horder
    simp only [List.length_append, List.length_range] at hlength
    omega
  have hfinished : s.finished = List.range s.finished.length := by
    have htake := congrArg (List.take s.finished.length) horder
    rwa [List.take_left, List.take_range, Nat.min_eq_left hlen] at htake
  refine ⟨hfinished, fun t stolen ht => ?_⟩
  rw [ht] at horder
  have hget := congrArg (fun l => l[s.finished.length]?) horder
  simp only [Place.hands, List.cons_append, List.nil_append, List.getElem?_append_right le_rfl, Nat.sub_self,
    List.getElem?_cons_zero] at hget
  obtain ⟨_, hget⟩ := List.getElem?_eq_some_iff.mp hget.symm
  rw [← hget, List.getElem_range]

theorem one_thread_in_order_two :
    ∃ s, run (step Nat.succ) ({} : ThreadPool 1)
        ([.enqueue, .owner, .owner, .owner, .enqueue, .owner, .owner, .owner] ++ List.replicate 6 (.thread 0)) = some s ∧
      s.finished = List.range s.finished.length ∧
      ∀ t stolen, s.threads 0 = .running t stolen → t = s.finished.length := by
  obtain ⟨s, hrun⟩ : ∃ s, run (step Nat.succ) ({} : ThreadPool 1)
      ([.enqueue, .owner, .owner, .owner, .enqueue, .owner, .owner, .owner] ++ List.replicate 6 (.thread 0)) = some s :=
    ⟨_, rfl⟩
  exact ⟨s, hrun, one_thread_in_order hrun⟩

end One

end ThreadPool

end NiceHttp
