/-
# The server on its pool

`NiceHTTP::start` whole: the loop, the tasks and the pool that runs them. The
thread of the loop owns the pool: it enqueues a task, and is back in `poll`
when `enqueue_task` has returned; behind the loop it destroys the pool, and
`start` returns when the destructor has. A thread of the pool that has a task
in its hands makes the system calls of that task, and goes on with its own
loop when the task has returned.

Every run of the whole is a run of the server and one of the pool
(`server_run`, `pool_run`), so what the two keep holds here too. What the pool
adds for the server is `Linked`: a task that no thread runs and that has not
finished has made no system call.

Key definitions: `Pooled`, `Pooled.step`, `Pooled.Next`, `Pooled.Linked`,
`Pooled.Sound`.
Key theorems: `Pooled.server_run`, `Pooled.pool_run`, `Pooled.Sound.next`.
-/
import NiceHttp.Serving
import NiceHttp.Shutdown

namespace NiceHttp

open Run

/-- The task that makes the system call. -/
def Step.task : Step → Option ℕ
  | recv k _ => some k
  | send k => some k
  | close k => some k
  | _ => none

namespace Server

/-- The step enqueues a task. -/
def enqueues (s : Server) : Step → Bool
  | .enqueue => s.clientSocket.any fun fd => decide (0 < fd)
  | _ => false

/-- The task has returned or thrown. -/
def returned (s : Server) (k : ℕ) : Bool := s.tasks[k]?.any fun t => t.phase.isEnded

variable {regex : Regex} {router : Router} {s s' : Server} {l : Step}

theorem returned_iff {k : ℕ} : s.returned k = true ↔ ∃ t, s.tasks[k]? = some t ∧ t.phase.isEnded = true :=
  Option.any_eq_true _ _

/-- A step of the loop makes no system call of a task, and adds the task that
it enqueues. -/
theorem next_loop (h : Next regex router s l s') (hl : l.task = none) :
    s'.log = s.log ∧ (s.enqueues l = false ∧ s'.tasks = s.tasks ∨
      s.enqueues l = true ∧ ∃ fd, s'.tasks = s.tasks ++ [{ fd := fd }]) := by
  cases h with
  | ready => exact ⟨rfl, Or.inl ⟨rfl, rfl⟩⟩
  | leave => exact ⟨rfl, Or.inl ⟨rfl, rfl⟩⟩
  | refused => exact ⟨rfl, Or.inl ⟨rfl, rfl⟩⟩
  | connected => exact ⟨rfl, Or.inl ⟨rfl, rfl⟩⟩
  | @enqueue fd _ hclient hfd => exact ⟨rfl, Or.inr ⟨by simp [enqueues, hclient, hfd], fd, rfl⟩⟩
  | @skip fd _ hclient hfd => exact ⟨rfl, Or.inl ⟨by simp [enqueues, hclient, hfd], rfl⟩⟩
  | recv => cases hl
  | send => cases hl
  | close => cases hl

/-- A system call is that of a task that has not ended, and leaves the loop and
the other tasks as they are. -/
theorem next_call {k : ℕ} (h : Next regex router s l s') (hl : l.task = some k) :
    s.returned k = false ∧ s'.loop = s.loop ∧ s'.tasks.length = s.tasks.length ∧
      ∀ j, j ≠ k → s'.tasks[j]? = s.tasks[j]? ∧ s'.calls j = s.calls j := by
  have hact : ∀ (t : Task) (phase : Phase) (call : Syscall) (j : ℕ), j ≠ k →
      (s.act k t phase call).tasks[j]? = s.tasks[j]? ∧ (s.act k t phase call).calls j = s.calls j :=
    fun t phase call j hj => ⟨List.getElem?_set_ne hj.symm, calls_act_ne hj.symm t phase call⟩
  cases h with
  | @recv k' n fd r hk =>
    obtain rfl := Option.some.inj hl
    exact ⟨by simp [returned, hk, Phase.isEnded], rfl, List.length_set .., hact _ _ _⟩
  | @send k' fd raw hk =>
    obtain rfl := Option.some.inj hl
    exact ⟨by simp [returned, hk, Phase.isEnded], rfl, List.length_set .., hact _ _ _⟩
  | @close k' fd hk =>
    obtain rfl := Option.some.inj hl
    exact ⟨by simp [returned, hk, Phase.isEnded], rfl, List.length_set .., hact _ _ _⟩
  | _ => cases hl

/-- A task that has not ended can go on. -/
theorem exists_call {k : ℕ} (hk : k < s.tasks.length) (h : s.returned k = false) :
    ∃ l, l.task = some k ∧ (step regex router s l).isSome = true := by
  have hget := List.getElem?_eq_getElem hk
  cases hphase : s.tasks[k] with
  | mk fd phase =>
    rw [hphase] at hget
    cases phase with
    | receiving r => exact ⟨.recv k .eof, rfl, by simp [step, hget]⟩
    | sending raw => exact ⟨.send k, rfl, by simp [step, hget]⟩
    | closing => exact ⟨.close k, rfl, by simp [step, hget]⟩
    | ended result => simp [returned, hget, Phase.isEnded] at h

end Server

/-! ### The whole -/

structure Pooled (n : ℕ) where
  server : Server := {}
  pool : ThreadPool n := {}

namespace Pooled

/-- A step of the loop; a system call of the task that thread `i` runs; the
other steps of the threads and of the owner; and the way out of `start`. -/
inductive Act (n : ℕ) where
  | loop (l : Step)
  | call (i : Fin n) (l : Step)
  | thread (i : Fin n)
  | owner
  | leave

variable {n : ℕ}

/-- The thread is not in a task. -/
def isFree (s : Pooled n) (i : Fin n) : Bool :=
  match s.pool.threads i with
  | .running t _ => s.server.returned t
  | _ => true

section Step

variable (regex : Regex) (router : Router) (release : ℕ → ℕ)

/-- A step, if it is possible. -/
def step (s : Pooled n) : Act n → Option (Pooled n)
  | .loop l =>
    if s.pool.owner ≠ .ready ∨ l.task ≠ none then none
    else
      (s.server.step regex router l).bind fun server =>
        if s.server.enqueues l then (s.pool.step release .enqueue).map fun pool => ⟨server, pool⟩
        else some { s with server := server }
  | .call i l =>
    match s.pool.threads i with
    | .running t _ =>
      if l.task = some t then (s.server.step regex router l).map fun server => { s with server := server }
      else none
    | _ => none
  | .thread i => if s.isFree i then (s.pool.step release (.thread i)).map fun pool => { s with pool := pool } else none
  | .owner => (s.pool.step release .owner).map fun pool => { s with pool := pool }
  | .leave =>
    if s.server.loop = .left then (s.pool.step release .destroy).map fun pool => { s with pool := pool }
    else none

/-- The steps, one case for each branch. -/
inductive Next (s : Pooled n) : Act n → Pooled n → Prop where
  | turn {l : Step} {server : Server} (ho : s.pool.owner = .ready) (hl : l.task = none) :
      s.server.step regex router l = some server → s.server.enqueues l = false →
      Next s (.loop l) { s with server := server }
  | enqueue {l : Step} {server : Server} {pool : ThreadPool n} (hl : l.task = none) :
      s.server.step regex router l = some server → s.server.enqueues l = true →
      s.pool.step release .enqueue = some pool → Next s (.loop l) ⟨server, pool⟩
  | call {i : Fin n} {l : Step} {server : Server} {t : ℕ} {stolen : Bool}
      (hi : s.pool.threads i = .running t stolen) (hl : l.task = some t) :
      s.server.step regex router l = some server → Next s (.call i l) { s with server := server }
  | thread {i : Fin n} {pool : ThreadPool n} (hi : s.isFree i = true) :
      s.pool.step release (.thread i) = some pool → Next s (.thread i) { s with pool := pool }
  | owner {pool : ThreadPool n} : s.pool.step release .owner = some pool → Next s .owner { s with pool := pool }
  | leave {pool : ThreadPool n} (hloop : s.server.loop = .left) : s.pool.step release .destroy = some pool →
      Next s .leave { s with pool := pool }

variable {regex router release} {s s' : Pooled n} {a : Act n}

/-- **Every step is one of the cases.** -/
theorem next_of_step (h : step regex router release s a = some s') : Next regex router release s a s' := by
  cases a with
  | loop l =>
    simp only [step] at h
    split at h
    · cases h
    · rename_i hno
      obtain ⟨ho, hl⟩ := not_or.mp hno
      obtain ⟨server, hserver, hrest⟩ := Option.bind_eq_some_iff.mp h
      split at hrest
      · obtain ⟨pool, hpool, rfl⟩ := Option.map_eq_some_iff.mp hrest
        exact .enqueue (not_not.mp hl) hserver ‹_› hpool
      · cases hrest
        exact .turn (not_not.mp ho) (not_not.mp hl) hserver (Bool.eq_false_iff.mpr ‹_›)
  | call i l =>
    simp only [step] at h
    split at h
    · split at h
      · obtain ⟨server, hserver, rfl⟩ := Option.map_eq_some_iff.mp h
        exact .call ‹_› ‹_› hserver
      · cases h
    · cases h
  | thread i =>
    simp only [step] at h
    split at h
    · obtain ⟨pool, hpool, rfl⟩ := Option.map_eq_some_iff.mp h
      exact .thread ‹_› hpool
    · cases h
  | owner =>
    obtain ⟨pool, hpool, rfl⟩ := Option.map_eq_some_iff.mp h
    exact .owner hpool
  | leave =>
    simp only [step] at h
    split at h
    · obtain ⟨pool, hpool, rfl⟩ := Option.map_eq_some_iff.mp h
      exact .leave ‹_› hpool
    · cases h

/-! ### The two parts -/

/-- The steps of the server in a step of the whole. -/
def serverSteps : Act n → List Step
  | .loop l => [l]
  | .call _ l => [l]
  | _ => []

/-- The steps of the pool in a step of the whole. -/
def poolActs (s : Pooled n) : Act n → List (NiceHttp.Act n)
  | .loop l => if s.server.enqueues l then [.enqueue] else []
  | .call _ _ => []
  | .thread i => [.thread i]
  | .owner => [.owner]
  | .leave => [.destroy]

/-- The steps of the server leave `client_socket` alone until all tasks have ended. -/
def Undisturbed (s : Pooled n) (a : Act n) : Prop := ∀ l ∈ serverSteps a, s.server.Undisturbed l

instance (s : Pooled n) (a : Act n) : Decidable (s.Undisturbed a) :=
  inferInstanceAs (Decidable (∀ l ∈ serverSteps a, s.server.Undisturbed l))

theorem always_single {l : Step} {a : Act n} (h : s.Undisturbed a) (hl : serverSteps a = [l]) :
    Always (Server.step regex router) Server.Undisturbed s.server [l] :=
  ⟨h l (by rw [hl]; exact List.mem_singleton_self l), fun _ _ => trivial⟩

/-- **A run of the whole is a run of the server**, undisturbed if that is. -/
theorem server_run {acts : List (Act n)} (hrun : run (step regex router release) s acts = some s')
    (hok : Always (step regex router release) Undisturbed s acts) :
    ∃ ls, run (Server.step regex router) s.server ls = some s'.server ∧
      Always (Server.step regex router) Server.Undisturbed s.server ls := by
  refine simulation Pooled.server (fun _ => serverSteps) (fun {s a s'} h hok => ?_) hrun hok
  cases next_of_step h with
  | turn _ _ hserver => exact ⟨run_single hserver, always_single hok rfl⟩
  | enqueue _ hserver => exact ⟨run_single hserver, always_single hok rfl⟩
  | call _ _ hserver => exact ⟨run_single hserver, always_single hok rfl⟩
  | thread => exact ⟨rfl, trivial⟩
  | owner => exact ⟨rfl, trivial⟩
  | leave => exact ⟨rfl, trivial⟩

/-- **A run of the whole is a run of the pool.** -/
theorem pool_run {acts : List (Act n)} (hrun : run (step regex router release) s acts = some s') :
    ∃ as, run (ThreadPool.step release) s.pool as = some s'.pool := by
  refine simulation_run Pooled.pool poolActs (fun {s a s'} h => ?_) hrun
  cases next_of_step h with
  | turn _ _ _ hno =>
    simp only [poolActs, hno]
    rfl
  | enqueue _ _ hyes hpool =>
    simp only [poolActs, hyes]
    exact run_single hpool
  | call => rfl
  | thread _ hpool => exact run_single hpool
  | owner hpool => exact run_single hpool
  | leave _ hpool => exact run_single hpool

/-! ### The tasks -/

/-- How the tasks of the server go with those of the pool. -/
structure Linked (s : Pooled n) : Prop where
  enqueued : s.pool.enqueued = if 0 < n then s.server.tasks.length else 0
  fresh : ∀ (k : ℕ) (t : Task), s.server.tasks[k]? = some t → ¬ s.pool.Runs k → k ∉ s.pool.finished →
    t.phase = .receiving {} ∧ s.server.calls k = []
  ended : ∀ k ∈ s.pool.finished, s.server.returned k = true

/-- What the whole keeps. -/
structure Sound (regex : Regex) (router : Router) (s : Pooled n) : Prop extends Linked s where
  pool : s.pool.Conserved
  server : Server.Traced regex router s.server

/-- A step of the pool that enqueues nothing, and finishes only what has
returned. -/
theorem Linked.pool (hs : Linked s) {a : NiceHttp.Act n} {pool : ThreadPool n}
    (h : ThreadPool.Next release s.pool a pool) (ha : a ≠ .enqueue)
    (hreturned : ∀ i t b, a = .thread i → s.pool.threads i = .running t b → s.server.returned t = true) :
    Linked { s with pool := pool } := by
  refine ⟨(ThreadPool.enqueued_next h ha).trans hs.enqueued, fun k t hk hruns hfinished => ?_, fun k hk => ?_⟩
  · refine hs.fresh k t hk ?_ fun hf => hfinished (ThreadPool.mem_finished_next hf h)
    rintro ⟨i, b, hi⟩
    exact (ThreadPool.running_next hi h).elim (fun hi' => hruns ⟨i, b, hi'⟩) hfinished
  · rcases ThreadPool.finished_next h with he | ⟨i, t, b, rfl, hi, he⟩
    · exact hs.ended k (he ▸ hk)
    · rcases List.mem_append.mp (he ▸ hk) with hk | hk
      · exact hs.ended k hk
      · rw [List.mem_singleton.mp hk]
        exact hreturned i t b rfl hi

/-- The loop enqueues a task. -/
theorem Sound.enqueue (hs : Sound regex router s) {fd : ℤ} {server : Server} {pool : ThreadPool n}
    (hlog : server.log = s.server.log) (htasks : server.tasks = s.server.tasks ++ [{ fd := fd }])
    (h : ThreadPool.Next release s.pool .enqueue pool) : Linked ⟨server, pool⟩ := by
  have hcalls : ∀ k, server.calls k = s.server.calls k := fun k => by rw [Server.calls, hlog]; rfl
  have hthreads : pool.threads = s.pool.threads ∧ pool.finished = s.pool.finished := by
    cases h with
    | pick => exact ⟨rfl, rfl⟩
    | drop => exact ⟨rfl, rfl⟩
  refine ⟨?_, fun k t hk hruns hfinished => ?_, fun k hk => ?_⟩
  · show pool.enqueued = if 0 < n then server.tasks.length else 0
    by_cases hn : 0 < n
    · rw [ThreadPool.enqueue_next hs.pool hn h, hs.enqueued, if_pos hn, if_pos hn, htasks, List.length_append]
      rfl
    · rw [if_neg hn]
      have hzero := hs.enqueued
      rw [if_neg hn] at hzero
      cases h with
      | @pick i => exact absurd (Nat.zero_lt_of_lt i.isLt) hn
      | drop => exact hzero
  · simp only [htasks] at hk
    show t.phase = .receiving {} ∧ server.calls k = []
    rw [hcalls]
    rcases getElem?_concat hk with hk | ⟨rfl, rfl⟩
    · refine hs.fresh k t hk ?_ (hthreads.2 ▸ hfinished)
      rintro ⟨i, b, hi⟩
      exact hruns ⟨i, b, hthreads.1 ▸ hi⟩
    · -- the new task has made no system call
      refine ⟨rfl, ?_⟩
      rw [Server.calls, List.map_eq_nil_iff, List.filter_eq_nil_iff]
      intro o ho
      have := hs.server.tasks o ho
      simp only [decide_eq_true_eq]
      omega
  · obtain ⟨t, ht, hended⟩ := Server.returned_iff.mp (hs.ended k (hthreads.2 ▸ hk))
    refine Server.returned_iff.mpr ⟨t, ?_, hended⟩
    rw [htasks, List.getElem?_append_left (List.getElem?_eq_some_iff.mp ht).1, ht]

/-- A thread makes a system call of the task that it runs. -/
theorem Linked.call (hs : Linked s) {i : Fin n} {l : Step} {server : Server} {k : ℕ} {stolen : Bool}
    (hi : s.pool.threads i = .running k stolen) (hl : l.task = some k)
    (h : Server.Next regex router s.server l server) : Linked { s with server := server } := by
  obtain ⟨hreturned, -, hlen, hothers⟩ := Server.next_call h hl
  refine ⟨by rw [hs.enqueued, hlen], fun j t hj hruns hfinished => ?_, fun j hj => ?_⟩
  · have hjk : j ≠ k := by
      rintro rfl
      exact hruns ⟨i, stolen, hi⟩
    obtain ⟨htask, hcalls⟩ := hothers j hjk
    show t.phase = .receiving {} ∧ server.calls j = []
    rw [hcalls]
    exact hs.fresh j t (htask ▸ hj) hruns hfinished
  · have hended := hs.ended j hj
    have hjk : j ≠ k := by
      rintro rfl
      rw [hreturned] at hended
      cases hended
    show server.returned j = true
    rw [Server.returned, (hothers j hjk).1]
    exact hended

theorem server_next {l : Step} {server : Server} (hs : Server.Traced regex router s.server)
    (h : s.server.step regex router l = some server) : Server.Traced regex router server :=
  hs.next (Server.next_of_step h)

/-- **A step keeps the tasks of the server and of the pool together.** -/
theorem Sound.next (hs : Sound regex router s) (h : Next regex router release s a s') : Sound regex router s' := by
  cases h with
  | @turn l server ho hl hserver hno =>
    obtain ⟨hlog, ⟨-, htasks⟩ | ⟨hyes, -⟩⟩ := Server.next_loop (Server.next_of_step hserver) hl
    · refine ⟨⟨by rw [hs.enqueued, htasks], fun k t hk => ?_, fun k hk => ?_⟩, hs.pool, server_next hs.server hserver⟩
      · rw [show server.calls k = s.server.calls k by rw [Server.calls, hlog]; rfl]
        exact hs.fresh k t (htasks ▸ hk)
      · rw [Server.returned, htasks]
        exact hs.ended k hk
    · rw [hno] at hyes
      cases hyes
  | @enqueue l server pool hl hserver hyes hpool =>
    have hnext := ThreadPool.next_of_step hpool
    obtain ⟨hlog, ⟨hno, -⟩ | ⟨-, fd, htasks⟩⟩ := Server.next_loop (Server.next_of_step hserver) hl
    · rw [hyes] at hno
      cases hno
    · exact ⟨hs.enqueue hlog htasks hnext, hs.pool.next hnext, server_next hs.server hserver⟩
  | @call i l server t stolen hi hl hserver =>
    exact ⟨hs.toLinked.call hi hl (Server.next_of_step hserver), hs.pool, server_next hs.server hserver⟩
  | @thread i pool hfree hpool =>
    have hnext := ThreadPool.next_of_step hpool
    refine ⟨hs.toLinked.pool hnext (fun he => by cases he) fun j t b he hj => ?_, hs.pool.next hnext, hs.server⟩
    obtain rfl := NiceHttp.Act.thread.inj he
    rw [isFree, hj] at hfree
    exact hfree
  | owner hpool =>
    have hnext := ThreadPool.next_of_step hpool
    exact ⟨hs.toLinked.pool hnext (fun he => by cases he) (fun _ _ _ he => by cases he), hs.pool.next hnext, hs.server⟩
  | leave _ hpool =>
    have hnext := ThreadPool.next_of_step hpool
    exact ⟨hs.toLinked.pool hnext (fun he => by cases he) (fun _ _ _ he => by cases he), hs.pool.next hnext, hs.server⟩

theorem sound_init : Sound regex router ({} : Pooled n) where
  enqueued := by simp
  fresh := fun k t hk => by simp at hk
  ended := fun k hk => by simp at hk
  pool := ThreadPool.conserved_init
  server := Server.traced_init

theorem sound_of_run {acts : List (Act n)} (hrun : run (step regex router release) {} acts = some s) :
    Sound regex router s :=
  kept (fun hs h => hs.next (next_of_step h)) sound_init hrun

end Step

end Pooled

end NiceHttp
