/-
# What `start` does on its pool

For every run of the loop, the tasks, the owner and the threads of the pool,
in any order: at most as many calls of `parsereq` are under way as the pool
has threads (`at_most_threads`), and all system calls of a call are made by one
thread (`task_on_one_thread`). When no thread can go on every enqueued task has
been through a whole call of `parsereq` (`all_served_of_stuck`). And when
`start` has returned nothing runs any more, and no call was broken off: what
has begun has gone to its end (`start_returned`), and a task that never began
is left only if every thread had just seen the counter at 0
(`start_serves_all`). As long as the loop leaves `client_socket` alone until all
tasks have ended, all of this happens on the task's own connection
(`connections_served`).

Key definitions: `Pooled.Stuck`, `Pooled.Returned`.
Key theorems: `Pooled.at_most_threads`, `Pooled.all_served_of_stuck`,
`Pooled.start_returned`, `Pooled.connections_served`.
-/
import NiceHttp.Pooled

namespace NiceHttp

open Run

namespace Pooled

variable {n : ℕ} {regex : Regex} {router : Router} {release : ℕ → ℕ} {s s' : Pooled n} {a : Act n}

/-! ### The threads -/

/-- A task that has begun and not ended is run by a thread. -/
theorem Linked.runs (hs : Linked s) {k : ℕ} (hk : k < s.server.tasks.length) (hbegun : s.server.calls k ≠ [])
    (hended : s.server.returned k = false) : s.pool.Runs k := by
  by_contra hno
  refine hbegun (hs.fresh k _ (List.getElem?_eq_getElem hk) hno fun hf => ?_).2
  rw [hs.ended k hf] at hended
  cases hended

/-- A task that makes system calls was enqueued. -/
theorem Sound.lt_of_calls (hs : Sound regex router s) {k : ℕ} (h : s.server.calls k ≠ []) :
    k < s.server.tasks.length := by
  obtain ⟨call, hcall⟩ := List.exists_mem_of_ne_nil _ h
  obtain ⟨o, ho, -⟩ := List.mem_map.mp hcall
  obtain ⟨ho, hk⟩ := List.mem_filter.mp ho
  have hlt := hs.server.tasks o ho
  rwa [of_decide_eq_true hk] at hlt

/-- **At most `n` calls at a time.** In every run the calls of `parsereq` that
have made a system call and not ended are no more than the pool has threads. -/
theorem at_most_threads {acts : List (Act n)} (hrun : run (step regex router release) {} acts = some s)
    (ks : Finset ℕ) (hks : ∀ k ∈ ks, s.server.calls k ≠ [] ∧ s.server.returned k = false) : ks.card ≤ n := by
  have hs : Sound regex router s := sound_of_run hrun
  have hruns : ∀ k : ks, s.pool.Runs k := fun k =>
    hs.toLinked.runs (hs.lt_of_calls (hks k k.2).1) (hks k k.2).1 (hks k k.2).2
  choose thread stolen hthread using hruns
  have hinj : Function.Injective thread := by
    intro j k hjk
    have hj := hthread j
    rw [hjk, hthread k] at hj
    exact Subtype.ext (Place.running.inj hj).1.symm
  have hcard := Fintype.card_le_of_injective thread hinj
  rwa [Fintype.card_coe, Fintype.card_fin] at hcard

/-- A connection that arrives, and its task in the queue of a thread. -/
def arrives (fd : ℤ) : List (Act n) :=
  [.loop (.poll 1), .loop (.accept fd), .loop .enqueue, .owner, .owner, .owner]

/-- The system calls of task `k`, whose client sends nothing. -/
def hangsUp (i : Fin n) (k : ℕ) : List (Act n) := [.call i (.recv k .eof), .call i (.send k), .call i (.close k)]

/-- Two connections, each at its `send`, on two threads. -/
def twoAtWork (i j : Fin n) : List (Act n) :=
  List.flatten [arrives 5, List.replicate 3 (.thread i), [.call i (.recv 0 .eof)], arrives 6,
    List.replicate 3 (.thread j), [.call j (.recv 1 .eof)]]

theorem at_most_threads_two :
    ∃ s, run (step demoRegex {} Nat.succ) ({} : Pooled 2) (twoAtWork 0 1) = some s ∧
      (∀ k ∈ Finset.range 2, s.server.calls k ≠ [] ∧ s.server.returned k = false) ∧ (Finset.range 2).card ≤ 2 := by
  obtain ⟨s, hrun, h0, h1⟩ : ∃ s, run (step demoRegex {} Nat.succ) ({} : Pooled 2) (twoAtWork 0 1) = some s ∧
      (s.server.calls 0 ≠ [] ∧ s.server.returned 0 = false) ∧ (s.server.calls 1 ≠ [] ∧ s.server.returned 1 = false) :=
    ⟨_, rfl, ⟨List.cons_ne_nil _ _, rfl⟩, ⟨List.cons_ne_nil _ _, rfl⟩⟩
  have hks : ∀ k ∈ Finset.range 2, s.server.calls k ≠ [] ∧ s.server.returned k = false := by
    intro k hk
    rcases Nat.le_one_iff_eq_zero_or_eq_one.mp (Nat.lt_succ_iff.mp (Finset.mem_range.mp hk)) with rfl | rfl
    · exact h0
    · exact h1
  exact ⟨s, hrun, hks, at_most_threads hrun _ hks⟩

/-- The thread runs the task, or the task has finished. -/
def RanOn (p : ThreadPool n) (i : Fin n) (k : ℕ) : Prop := (∃ b, p.threads i = .running k b) ∨ k ∈ p.finished

theorem RanOn.next {p p' : ThreadPool n} {b : NiceHttp.Act n} {i : Fin n} {k : ℕ} (hk : RanOn p i k)
    (h : ThreadPool.Next release p b p') : RanOn p' i k := by
  rcases hk with ⟨stolen, hi⟩ | hf
  · exact (ThreadPool.running_next hi h).imp (fun hi' => ⟨stolen, hi'⟩) id
  · exact Or.inr (ThreadPool.mem_finished_next hf h)

/-- A step of the whole is one of the pool, or leaves the pool. -/
theorem pool_next (h : Next regex router release s a s') :
    s'.pool = s.pool ∨ ∃ b, ThreadPool.Next release s.pool b s'.pool := by
  cases h with
  | turn => exact Or.inl rfl
  | enqueue _ _ _ hpool => exact Or.inr ⟨_, ThreadPool.next_of_step hpool⟩
  | call => exact Or.inl rfl
  | thread _ hpool => exact Or.inr ⟨_, ThreadPool.next_of_step hpool⟩
  | owner hpool => exact Or.inr ⟨_, ThreadPool.next_of_step hpool⟩
  | leave _ hpool => exact Or.inr ⟨_, ThreadPool.next_of_step hpool⟩

/-- The system calls so far were made by threads that run their task, or ran
it to its end, and those of one task by one thread. -/
structure Attached (acts : List (Act n)) (s : Pooled n) : Prop where
  ran : ∀ i l k, .call i l ∈ acts → l.task = some k → RanOn s.pool i k
  once : ∀ i j l m k, .call i l ∈ acts → .call j m ∈ acts → l.task = some k → m.task = some k → i = j

theorem Attached.next {acts : List (Act n)} (ha : Attached acts s) (hs : Sound regex router s)
    (h : Next regex router release s a s') : Attached (acts ++ [a]) s' := by
  -- the thread that makes a call now is the one that made the calls before
  have hnow : ∀ i j l m k, .call i l ∈ acts → .call j m = a → l.task = some k → m.task = some k → i = j := by
    rintro i j l m k hi rfl hl hm
    cases h with
    | @call _ _ _ t b hj hm' =>
      obtain rfl := Option.some.inj (hm'.symm.trans hm)
      obtain ⟨-, hunfinished, hunique⟩ := hs.pool.running hj
      obtain ⟨b', hi'⟩ := (ha.ran i l _ hi hl).resolve_right hunfinished
      exact hunique i b' hi'
  constructor
  · intro i l k hi hl
    rcases List.mem_append.mp hi with hi | hi
    · rcases pool_next h with he | ⟨b, hnext⟩
      · rw [he]
        exact ha.ran i l k hi hl
      · exact (ha.ran i l k hi hl).next hnext
    · obtain rfl := List.mem_singleton.mp hi
      cases h with
      | @call _ _ _ t b hj hl' =>
        obtain rfl := Option.some.inj (hl'.symm.trans hl)
        exact Or.inl ⟨b, hj⟩
  · intro i j l m k hi hj hl hm
    rcases List.mem_append.mp hi with hi | hi
    · rcases List.mem_append.mp hj with hj | hj
      · exact ha.once i j l m k hi hj hl hm
      · exact hnow i j l m k hi (List.mem_singleton.mp hj) hl hm
    · rcases List.mem_append.mp hj with hj | hj
      · exact (hnow j i m l k hj (List.mem_singleton.mp hi) hm hl).symm
      · exact (Act.call.inj ((List.mem_singleton.mp hi).trans (List.mem_singleton.mp hj).symm)).1

/-- **One thread for a call.** In every run the system calls of a task are made
by one thread. -/
theorem task_on_one_thread {acts : List (Act n)} (hrun : run (step regex router release) {} acts = some s)
    {i j : Fin n} {l m : Step} {k : ℕ} (hi : .call i l ∈ acts) (hj : .call j m ∈ acts) (hl : l.task = some k)
    (hm : m.task = some k) : i = j := by
  have hattached : Attached acts s ∧ Sound regex router s :=
    history (I := fun acts s => Attached acts s ∧ Sound regex router s)
      ⟨⟨fun _ _ _ hi => absurd hi List.not_mem_nil, fun _ _ _ _ _ hi => absurd hi List.not_mem_nil⟩, sound_init⟩
      (fun hs h => ⟨hs.1.next hs.2 (next_of_step h), hs.2.next (next_of_step h)⟩) acts hrun
  exact hattached.1.once i j l m k hi hj hl hm

/-- Two connections, one after the other: thread `i` serves the first one, then
steals the task of the second from the queue of thread `j`, and both threads go
back to sleep. -/
def stolenServed (i j : Fin n) : List (Act n) :=
  List.flatten [arrives 5, List.replicate 3 (.thread i), hangsUp i 0, [.thread i], arrives 5,
    List.replicate 3 (.thread i), hangsUp i 1, List.replicate 4 (.thread i), List.replicate 7 (.thread j)]

/-- Before its first system call task 1 has been stolen. -/
theorem task_on_one_thread_stolen :
    ∃ t s, run (step demoRegex {} Nat.succ) ({} : Pooled 2) ((stolenServed 0 1).take 22) = some t ∧
      t.pool.threads 0 = .running 1 true ∧
      run (step demoRegex {} Nat.succ) ({} : Pooled 2) (stolenServed 0 1) = some s ∧
      ∀ i j l m k, .call i l ∈ stolenServed (0 : Fin 2) 1 → .call j m ∈ stolenServed (0 : Fin 2) 1 →
        l.task = some k → m.task = some k → i = j := by
  obtain ⟨t, ht, hstolen⟩ : ∃ t, run (step demoRegex {} Nat.succ) ({} : Pooled 2) ((stolenServed 0 1).take 22) =
      some t ∧ t.pool.threads 0 = .running 1 true := ⟨_, rfl, rfl⟩
  obtain ⟨s, hrun⟩ : ∃ s, run (step demoRegex {} Nat.succ) ({} : Pooled 2) (stolenServed 0 1) = some s := ⟨_, rfl⟩
  exact ⟨t, s, ht, hstolen, hrun, fun i j l m k hi hj hl hm => task_on_one_thread hrun hi hj hl hm⟩

/-! ### No call is left waiting -/

section Stuck

variable (regex router release)

/-- No thread can make a system call or go on, and the owner is not in a call. -/
def Stuck (s : Pooled n) : Prop :=
  (∀ i l, step regex router release s (.call i l) = none) ∧ (∀ i, step regex router release s (.thread i) = none) ∧
    step regex router release s .owner = none

end Stuck

/-- With a thread, the tasks of the pool are those of the server. -/
theorem Linked.enqueued_eq (hs : Linked s) (hn : 0 < n) : s.pool.enqueued = s.server.tasks.length := by
  rw [hs.enqueued, if_pos hn]

/-- A thread of a stuck pool has no task that could go on. -/
theorem Stuck.pool (hs : Sound regex router s) (hn : 0 < n) (h : Stuck regex router release s) :
    s.pool.Stuck release := by
  obtain ⟨hcall, hthread, howner⟩ := h
  refine ⟨Option.map_eq_none_iff.mp howner, fun i => ?_⟩
  have hfree : s.isFree i = true := by
    unfold isFree
    split
    · rename_i t stolen hi
      by_contra hno
      obtain ⟨hlt, -⟩ := hs.pool.running hi
      rw [hs.toLinked.enqueued_eq hn] at hlt
      obtain ⟨l, hl, hsome⟩ := @Server.exists_call regex router _ _ hlt (Bool.not_eq_true _ ▸ hno)
      have hnone := hcall i l
      simp only [step, hi, hl, if_pos, Option.map_eq_none_iff] at hnone
      rw [hnone] at hsome
      cases hsome
    · rfl
  have hnone := hthread i
  simp only [step, hfree, if_pos, Option.map_eq_none_iff] at hnone
  exact hnone

/-- A task that has finished went through `parsereq`. -/
theorem Sound.served (hs : Sound regex router s) {k : ℕ} (hk : k ∈ s.pool.finished) :
    ∃ ns o, parsereq regex router ns = some o ∧ s.server.calls k = o.syscalls := by
  obtain ⟨t, ht, hended⟩ := Server.returned_iff.mp (hs.ended k hk)
  exact hs.server.ended ht hended

theorem stopping_of_run (hrelease : ∀ c, release c ≠ 0) {acts : List (Act n)}
    (hrun : run (step regex router release) {} acts = some s) : s.pool.Stopping := by
  obtain ⟨as, has⟩ := pool_run hrun
  exact ThreadPool.stopping_of_run hrelease has

/-- A stuck pool has finished all tasks, or `start` has returned. -/
theorem Stuck.finished (hrelease : ∀ c, release c ≠ 0) (hn : 0 < n) {acts : List (Act n)}
    (hrun : run (step regex router release) {} acts = some s) (hstuck : Stuck regex router release s) :
    s.pool.owner = .gone ∨ s.pool.owner = .ready ∧ ∀ k < s.server.tasks.length, k ∈ s.pool.finished := by
  have hs : Sound regex router s := sound_of_run hrun
  obtain ⟨as, has⟩ := pool_run hrun
  have hpool : s.pool.Sound := ThreadPool.sound_of_run hrelease has
  refine ((hstuck.pool hs hn).cases hpool (stopping_of_run hrelease hrun)).imp id fun ⟨ho, hwaiting⟩ =>
    ⟨ho, fun k hk => ?_⟩
  have hfinished := hpool.toConserved.finished (by rw [ho]; rfl) (fun i => (hwaiting i).2)
    fun i => by rw [(hwaiting i).1]; rfl
  rw [hs.toLinked.enqueued_eq hn] at hfinished
  exact hfinished.mem_iff.mpr (List.mem_range.mpr hk)

/-- **No call is left waiting.** When no thread can make a system call or go
on, `start` has returned or its loop is between two calls of the pool, and on
every task that was enqueued a call of `parsereq` has gone to its end. -/
theorem all_served_of_stuck (hrelease : ∀ c, release c ≠ 0) (hn : 0 < n) {acts : List (Act n)}
    (hrun : run (step regex router release) {} acts = some s) (hstuck : Stuck regex router release s) :
    s.pool.owner = .gone ∨ s.pool.owner = .ready ∧ ∀ k < s.server.tasks.length,
      ∃ ns o, parsereq regex router ns = some o ∧ s.server.calls k = o.syscalls := by
  have hs : Sound regex router s := sound_of_run hrun
  exact (hstuck.finished hrelease hn hrun).imp id fun ⟨ho, hall⟩ => ⟨ho, fun k hk => hs.served (hall k hk)⟩

theorem stolenServed_stuck :
    ∃ s, run (step demoRegex {} Nat.succ) ({} : Pooled 2) (stolenServed 0 1) = some s ∧ s.server.accepted = [5, 5] ∧
      s.server.tasks.length = 2 ∧ s.server.loop = .polling ∧ Stuck demoRegex {} Nat.succ s :=
  ⟨_, rfl, rfl, rfl, rfl, Fin.forall_fin_two.mpr ⟨fun _ => rfl, fun _ => rfl⟩, Fin.forall_fin_two.mpr ⟨rfl, rfl⟩, rfl⟩

theorem all_served_of_stuck_stolen :
    ∃ s, run (step demoRegex {} Nat.succ) ({} : Pooled 2) (stolenServed 0 1) = some s ∧ s.server.tasks.length = 2 ∧
      (s.pool.owner = .gone ∨ s.pool.owner = .ready ∧ ∀ k < s.server.tasks.length,
        ∃ ns o, parsereq demoRegex {} ns = some o ∧ s.server.calls k = o.syscalls) := by
  obtain ⟨s, hrun, -, hlength, -, hstuck⟩ := stolenServed_stuck
  exact ⟨s, hrun, hlength, all_served_of_stuck Nat.succ_ne_zero two_pos hrun hstuck⟩

/-! ### The return of `start` -/

/-- The owner is in the destructor only behind the loop. -/
theorem left_next (hs : s.pool.owner.isStopping = true → s.server.loop = .left)
    (h : Next regex router release s a s') : s'.pool.owner.isStopping = true → s'.server.loop = .left := by
  intro ho
  cases h with
  | turn hready =>
    simp only [hready] at ho
    cases ho
  | enqueue _ _ _ hpool =>
    have hnext := ThreadPool.next_of_step hpool
    have hstopping := ((ThreadPool.isStopping_next hnext).mp ho).resolve_right nofun
    cases hnext with
    | pick hready => rw [hready] at hstopping; cases hstopping
    | drop hready => rw [hready] at hstopping; cases hstopping
  | call hi hl hserver =>
    rw [← hs ho]
    exact (Server.next_call (Server.next_of_step hserver) hl).2.1
  | thread _ hpool => exact hs (((ThreadPool.isStopping_next (ThreadPool.next_of_step hpool)).mp ho).resolve_right nofun)
  | owner hpool => exact hs (((ThreadPool.isStopping_next (ThreadPool.next_of_step hpool)).mp ho).resolve_right nofun)
  | leave hloop => exact hloop

theorem left_of_gone {acts : List (Act n)} (hrun : run (step regex router release) {} acts = some s)
    (hgone : s.pool.owner = .gone) : s.server.loop = .left :=
  kept (I := fun s => s.pool.owner.isStopping = true → s.server.loop = .left)
    (fun hs h => left_next hs (next_of_step h)) (fun h => absurd h Bool.false_ne_true) hrun (by rw [hgone]; rfl)

/-- **`start` returns when everything has ended.** When it has returned the loop
is left and no step is possible any more; every task has gone through a whole
call of `parsereq`, or it has never begun. -/
theorem start_returned (hrelease : ∀ c, release c ≠ 0) {acts : List (Act n)}
    (hrun : run (step regex router release) {} acts = some s) (hgone : s.pool.owner = .gone) :
    s.server.loop = .left ∧ (∀ a, step regex router release s a = none) ∧
      ∀ (k : ℕ) (t : Task), s.server.tasks[k]? = some t →
        (t.phase = .receiving {} ∧ s.server.calls k = []) ∨
          (t.phase.isEnded = true ∧ ∃ ns o, parsereq regex router ns = some o ∧ s.server.calls k = o.syscalls) := by
  have hs : Sound regex router s := sound_of_run hrun
  have hexited : ∀ i, s.pool.threads i = .exited := by
    intro i
    refine (stopping_of_run hrelease hrun).joined i ?_
    rw [hgone]
    trivial
  refine ⟨left_of_gone hrun hgone, fun a => ?_, fun k t hk => ?_⟩
  · cases a with
    | loop l => simp [step, hgone]
    | call i l => simp [step, hexited i]
    | thread i => simp [step, ThreadPool.step, ThreadPool.threadStep, hexited i]
    | owner => simp [step, ThreadPool.step, ThreadPool.ownerStep, hgone]
    | leave => simp [step, ThreadPool.step, hgone]
  · by_cases hf : k ∈ s.pool.finished
    · obtain ⟨t', ht', hended⟩ := Server.returned_iff.mp (hs.ended k hf)
      obtain rfl := Option.some.inj (hk.symm.trans ht')
      exact Or.inr ⟨hended, hs.served hf⟩
    · refine Or.inl (hs.fresh k t hk ?_ hf)
      rintro ⟨i, b, hi⟩
      rw [hexited i] at hi
      cases hi

/-- Two threads that sleep are woken once more, one after the other, and `start` returns. -/
def bothReturned (i j : Fin n) : List (Act n) :=
  List.flatten [[.owner, .owner], List.replicate 7 (.thread i), [.owner, .owner, .owner], List.replicate 7 (.thread j),
    [.owner, .owner]]

theorem start_returned_two :
    ∃ s, run (step demoRegex {} Nat.succ) ({} : Pooled 2)
        (stolenServed 0 1 ++ .loop (.poll 0) :: .leave :: bothReturned 0 1) = some s ∧ s.server.loop = .left ∧ (∀ a, step demoRegex {} Nat.succ s a = none) ∧
      ∀ (k : ℕ) (t : Task), s.server.tasks[k]? = some t →
        (t.phase = .receiving {} ∧ s.server.calls k = []) ∨
          (t.phase.isEnded = true ∧ ∃ ns o, parsereq demoRegex {} ns = some o ∧ s.server.calls k = o.syscalls) := by
  obtain ⟨s, hrun, hgone⟩ : ∃ s, run (step demoRegex {} Nat.succ) ({} : Pooled 2)
      (stolenServed 0 1 ++ .loop (.poll 0) :: .leave :: bothReturned 0 1) = some s ∧ s.pool.owner = .gone :=
    ⟨_, rfl, rfl⟩
  exact ⟨s, hrun, start_returned Nat.succ_ne_zero hrun hgone⟩

/-- `start` goes out of its loop in the one state and has returned in the other. -/
def Returned (regex : Regex) (router : Router) (release : ℕ → ℕ) (s s' : Pooled n) : Prop :=
  ∃ acts, run (step regex router release) s (.leave :: acts) = some s' ∧ s'.pool.owner = .gone

/-- **`start` serves every task** that it enqueued before it returns, if the
queues were empty when it went out of its loop, or a thread of the pool had not
just seen the counter at 0. -/
theorem start_serves_all (hrelease : ∀ c, release c ≠ 0) (hn : 0 < n) {acts : List (Act n)}
    (hrun : run (step regex router release) {} acts = some s)
    (hleft : (∀ i, s.pool.tasks i = []) ∨ ∃ i, (s.pool.threads i).isPast = false)
    (hreturned : Returned regex router release s s') :
    s'.server.tasks.length = s.server.tasks.length ∧ ∀ k < s.server.tasks.length,
      ∃ ns o, parsereq regex router ns = some o ∧ s'.server.calls k = o.syscalls := by
  have hs : Sound regex router s := sound_of_run hrun
  obtain ⟨acts', hrun', hgone⟩ := hreturned
  have hs' : Sound regex router s' := kept (fun hs h => hs.next (next_of_step h)) hs hrun'
  rw [run_cons] at hrun'
  obtain ⟨t, ht, hrest⟩ := Option.bind_eq_some_iff.mp hrun'
  have hdestroyed : ThreadPool.Destroyed release s.pool s'.pool := by
    cases next_of_step ht with
    | leave _ hpool =>
      obtain ⟨as, has⟩ := pool_run hrest
      exact ⟨as, by rw [run_cons, hpool]; exact has, hgone⟩
  have hfinished := hdestroyed.finished hrelease hs.pool (stopping_of_run hrelease hrun) hleft
  have hending := (hdestroyed.ending hrelease hs.pool (stopping_of_run hrelease hrun)).1
  rw [hs.toLinked.enqueued_eq hn] at hfinished
  refine ⟨?_, fun k hk => hs'.served (hfinished.mem_iff.mpr (List.mem_range.mpr hk))⟩
  rw [← hs'.toLinked.enqueued_eq hn, ← hs.toLinked.enqueued_eq hn]
  exact hending.enqueued

theorem start_serves_all_two :
    ∃ s s', run (step demoRegex {} Nat.succ) ({} : Pooled 2) (stolenServed 0 1 ++ [.loop (.poll 0)]) = some s ∧
      s.server.tasks.length = 2 ∧ Returned demoRegex {} Nat.succ s s' ∧
      s'.server.tasks.length = s.server.tasks.length ∧
      ∀ k < s.server.tasks.length, ∃ ns o, parsereq demoRegex {} ns = some o ∧ s'.server.calls k = o.syscalls := by
  obtain ⟨s, hrun, hlength, hempty⟩ : ∃ s, run (step demoRegex {} Nat.succ) ({} : Pooled 2)
      (stolenServed 0 1 ++ [.loop (.poll 0)]) = some s ∧ s.server.tasks.length = 2 ∧ ∀ i, s.pool.tasks i = [] :=
    ⟨_, rfl, rfl, Fin.forall_fin_two.mpr ⟨rfl, rfl⟩⟩
  obtain ⟨s', hwhole, hgone⟩ : ∃ s', run (step demoRegex {} Nat.succ) ({} : Pooled 2)
      ((stolenServed 0 1 ++ [.loop (.poll 0)]) ++ .leave :: bothReturned 0 1) = some s' ∧ s'.pool.owner = .gone :=
    ⟨_, rfl, rfl⟩
  rw [run_append, hrun] at hwhole
  have hreturned : Returned demoRegex {} Nat.succ s s' := ⟨_, hwhole, hgone⟩
  exact ⟨s, s', hrun, hlength, hreturned, start_serves_all Nat.succ_ne_zero two_pos hrun (Or.inl hempty) hreturned⟩

/-! ### The connections -/

/-- A loop that is left when all tasks have ended gets no more. -/
theorem left_idle {s s' : Server} {l : Step} (hs : s.loop = .left → s.Idle) (hok : s.Undisturbed l)
    (h : Server.Next regex router s l s') (hleft : s'.loop = .left) : s'.Idle := by
  have hno : ∀ {k : ℕ} {t : Task}, s.loop = .left → s.tasks[k]? = some t → t.phase.isEnded = false → False :=
    fun hl hk ht => Server.not_running (hs hl) hk ht
  cases h with
  | ready => cases hleft
  | leave _ hrc => exact hok.resolve_left hrc
  | refused => cases hleft
  | connected => cases hleft
  | enqueue => cases hleft
  | skip => cases hleft
  | recv hk => exact (hno hleft hk rfl).elim
  | send hk => exact (hno hleft hk rfl).elim
  | close hk => exact (hno hleft hk rfl).elim

/-- **Every connection its own call, on the pool.** In every run in which the
loop leaves `client_socket` alone until all tasks have ended, when no thread can
go on, or `start` has returned, each accepted connection (but for one that the
loop is about to enqueue) has had on it the system calls of one whole call of
`parsereq`, and no others. -/
theorem connections_served (hrelease : ∀ c, release c ≠ 0) (hn : 0 < n) {acts : List (Act n)}
    (hrun : run (step regex router release) {} acts = some s)
    (hok : Always (step regex router release) Undisturbed {} acts) (hstuck : Stuck regex router release s)
    (hloop : s.server.loop ≠ .accepted) :
    ∀ c < s.server.accepted.length, ∃ ns o, parsereq regex router ns = some o ∧
      (s.server.log.filter fun o => o.conn = some c).map Op.call = o.syscalls := by
  obtain ⟨ls, hls, hundisturbed⟩ := server_run hrun hok
  have howned : Server.Owned s.server := Server.owned_of_run hundisturbed hls
  have hs : Sound regex router s := sound_of_run hrun
  have hidle : s.server.Idle := by
    rcases hstuck.finished hrelease hn hrun with hgone | ⟨-, hall⟩
    · have hleft : s.server.loop = .left → s.server.Idle :=
        invariant (I := fun s : Server => s.loop = .left → s.Idle)
          (fun hs hok h => left_idle hs hok (Server.next_of_step h)) (fun h => Loop.noConfusion h) hundisturbed hls
      exact hleft (left_of_gone hrun hgone)
    · intro t ht
      obtain ⟨k, hk, rfl⟩ := List.getElem_of_mem ht
      obtain ⟨t, ht, hended⟩ := Server.returned_iff.mp (hs.ended k (hall k hk))
      obtain ⟨_, rfl⟩ := List.getElem?_eq_some_iff.mp ht
      exact hended
  intro c hc
  rw [← howned.queued hloop, List.length_map] at hc
  rw [howned.calls_conn]
  exact hs.server.ended (List.getElem?_eq_getElem hc) (hidle _ (List.getElem_mem hc))

theorem connections_served_stolen :
    ∃ s, run (step demoRegex {} Nat.succ) ({} : Pooled 2) (stolenServed 0 1) = some s ∧ s.server.accepted = [5, 5] ∧
      ∀ c < s.server.accepted.length, ∃ ns o, parsereq demoRegex {} ns = some o ∧
        (s.server.log.filter fun o => o.conn = some c).map Op.call = o.syscalls := by
  obtain ⟨s, hrun, haccepted, -, hloop, hstuck⟩ := stolenServed_stuck
  have hok : Always (step demoRegex {} Nat.succ) Undisturbed ({} : Pooled 2) (stolenServed 0 1) := by decide
  exact ⟨s, hrun, haccepted, connections_served Nat.succ_ne_zero two_pos hrun hok hstuck (by rw [hloop]; nofun)⟩

end Pooled

end NiceHttp
