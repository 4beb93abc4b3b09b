/-
# The futures of the pool

`thread_pool::enqueue`. The task that it enqueues holds a promise: it calls the
function and puts what that returns or throws into the promise, and the caller
has the future. A promise that is destroyed before breaks its future: that of a
task that no thread took from its queue, when the pool is destroyed behind its
destructor, and that of a task that is dropped because the pool has no threads.
A call of `enqueue_detach` is one whose future nobody keeps.

In every run a future is ready exactly with the outcome of the one call of its
function, and broken exactly if the destructor has returned with the task in a
queue (`futures_of_run`); and in every fair behaviour no future is pending for
ever, so `get` returns (`every_future_settles`).

Key definitions: `Future`, `Promised`, `Promised.step`, `Promised.Kept`.
Key theorems: `Promised.Kept.next`, `Promised.futures_of_run`,
`Promised.every_future_settles`.
-/
import NiceHttp.Joining

namespace NiceHttp

open Run

/-- The state that a promise and its future share. -/
inductive Future (ε α : Type*) where
  | pending
  | ready (outcome : Except ε α)
  | broken

namespace Future

variable {ε α : Type*}

/-- `set_value`, or `set_exception`. -/
def settle (outcome : Except ε α) : Future ε α → Future ε α
  | pending => ready outcome
  | f => f

/-- The promise is destroyed. -/
def abandon : Future ε α → Future ε α
  | pending => broken
  | f => f

end Future

/-- A pool with the futures of its tasks, in the order of the enqueueing.
`outcomes` has what the functions returned or threw; no code reads it. -/
structure Promised (n : ℕ) (ε α : Type*) where
  pool : ThreadPool n := {}
  futures : List (Future ε α) := []
  outcomes : List (ℕ × Except ε α) := []

/-- The finished tasks were enqueued, each once. -/
theorem ThreadPool.Conserved.finished_le {n : ℕ} {s : ThreadPool n} (hs : s.Conserved) :
    (s.finished : Multiset ℕ) ≤ Multiset.range s.enqueued := by
  rw [← hs.held]
  exact Multiset.le_add_left _ _

theorem ThreadPool.Conserved.lt_of_finished {n : ℕ} {s : ThreadPool n} (hs : s.Conserved) {t : ℕ} (ht : t ∈ s.finished) :
    t < s.enqueued := Multiset.mem_range.mp (Multiset.mem_of_le hs.finished_le ht)

namespace Promised

/-- The steps of the pool; if the step of a thread is the return of a function,
`outcome` is what it returns or throws. -/
inductive Act (n : ℕ) (ε α : Type*) where
  | enqueue
  | destroy
  | owner
  | thread (i : Fin n) (outcome : Except ε α)

variable {n : ℕ} {ε α : Type*}

/-- The step of the pool. -/
def Act.pool : Act n ε α → NiceHttp.Act n
  | enqueue => .enqueue
  | destroy => .destroy
  | owner => .owner
  | thread i _ => .thread i

/-- The task that returns in the step, with its outcome. -/
def returned (s : Promised n ε α) : Act n ε α → Option (ℕ × Except ε α)
  | .thread i r =>
    match s.pool.threads i with
    | .running t _ => some (t, r)
    | _ => none
  | _ => none

/-- The futures after a step to the pool. When the destructor has returned the
queues are destroyed, and the tasks in them. -/
def futuresAfter (s : Promised n ε α) (a : Act n ε α) (pool : ThreadPool n) : List (Future ε α) :=
  match a with
  | .enqueue => s.futures ++ [if s.pool.priorityQueue.isEmpty then .broken else .pending]
  | .destroy => s.futures
  | .owner =>
    if pool.owner = .gone then s.futures.mapIdx fun k f => if ∃ i, k ∈ pool.tasks i then f.abandon else f
    else s.futures
  | .thread _ _ =>
    match s.returned a with
    | some (t, r) => s.futures.modify t (Future.settle r)
    | none => s.futures

/-- A step, if it is possible. -/
def step (release : ℕ → ℕ) (s : Promised n ε α) (a : Act n ε α) : Option (Promised n ε α) :=
  (s.pool.step release a.pool).map fun pool =>
    { pool := pool, futures := s.futuresAfter a pool, outcomes := s.outcomes ++ (s.returned a).toList }

variable {release : ℕ → ℕ} {s s' : Promised n ε α} {a : Act n ε α}

/-- The future that the task has to have. -/
def futureOf (s : Promised n ε α) (k : ℕ) : Future ε α :=
  match s.outcomes.lookup k with
  | some r => .ready r
  | none => if s.pool.owner = .gone ∧ ∃ i, k ∈ s.pool.tasks i then .broken else .pending

/-- What the steps keep of the futures. -/
structure Kept (s : Promised n ε α) : Prop where
  conserved : s.pool.Conserved
  stopping : s.pool.Stopping
  length : s.futures.length = s.pool.enqueued
  outcomes : s.outcomes.map Prod.fst = s.pool.finished
  futures : ∀ k f, s.futures[k]? = some f → f = s.futureOf k

theorem kept_init : Kept ({} : Promised n ε α) where
  conserved := ThreadPool.conserved_init
  stopping := ThreadPool.stopping_init
  length := rfl
  outcomes := rfl
  futures := fun k f hk => by simp at hk

/-- A pool that is destroyed makes no step. -/
theorem step_gone (hst : s.pool.Stopping) (ho : s.pool.owner = .gone) : s.pool.step release a.pool = none := by
  cases a with
  | enqueue => simp [Act.pool, ThreadPool.step, ho]
  | destroy => simp [Act.pool, ThreadPool.step, ho]
  | owner => simp [Act.pool, ThreadPool.step, ThreadPool.ownerStep, ho]
  | thread i r =>
    have hexited := hst.joined i (by rw [ho]; trivial)
    simp [Act.pool, ThreadPool.step, ThreadPool.threadStep, hexited]

/-- As long as the destructor has not returned no future is broken. -/
theorem futureOf_open (ho : s.pool.owner ≠ .gone) (k : ℕ) :
    s.futureOf k = match s.outcomes.lookup k with
      | some r => .ready r
      | none => .pending := by
  unfold futureOf
  split
  · rfl
  · rw [if_neg fun h => ho h.1]

theorem futureOf_keep (ho : s.pool.owner ≠ .gone) (ho' : s'.pool.owner ≠ .gone) (h : s'.outcomes = s.outcomes) (k : ℕ) :
    s'.futureOf k = s.futureOf k := by
  rw [futureOf_open ho, futureOf_open ho', h]

/-- The destructor returns by a step of its own. -/
theorem open_next {pool : ThreadPool n} (h : ThreadPool.Next release s.pool a.pool pool) (ha : a ≠ .owner)
    (ho : s.pool.owner ≠ .gone) : pool.owner ≠ .gone := by
  intro hgone
  have hstopping : s.pool.owner.isStopping = true ∨ a.pool = .destroy :=
    (ThreadPool.isStopping_next h).mp (by rw [hgone]; rfl)
  cases a with
  | enqueue =>
    cases h with
    | pick => cases hgone
    | drop => exact ho hgone
  | destroy =>
    cases h with
    | destroy => cases hgone
  | owner => exact ha rfl
  | thread i r =>
    have hready : s.pool.owner ≠ .ready := by
      intro hready
      rw [hready] at hstopping
      exact hstopping.elim nofun nofun
    exact ho ((ThreadPool.owner_next h nofun hready).symm.trans hgone)

/-- A task finishes by the return of its function. -/
theorem finished_step {pool : ThreadPool n} (h : s.pool.step release a.pool = some pool) :
    pool.finished = s.pool.finished ++ (s.returned a).toList.map Prod.fst := by
  have hsilent : (∀ i t stolen, a.pool = .thread i → s.pool.threads i ≠ .running t stolen) → s.returned a = none →
      pool.finished = s.pool.finished ++ (s.returned a).toList.map Prod.fst := by
    intro hno hreturned
    rw [hreturned]
    rcases ThreadPool.finished_next (ThreadPool.next_of_step h) with he | ⟨i, t, stolen, ha, hi, -⟩
    · rw [he]
      exact (List.append_nil _).symm
    · exact absurd hi (hno i t stolen ha)
  cases a with
  | thread i r =>
    cases hp : s.pool.threads i with
    | running t stolen =>
      simp only [Act.pool, ThreadPool.step, ThreadPool.threadStep, hp] at h
      rw [← Option.some.inj h]
      simp only [returned, hp]
      rfl
    | _ =>
      refine hsilent (fun j t stolen hj => ?_) (by simp only [returned, hp])
      rw [← NiceHttp.Act.thread.inj hj, hp]
      simp
  | _ => exact hsilent (by simp [Act.pool]) rfl

theorem Kept.lookup_eq_none (hs : Kept s) {k : ℕ} (hk : k ∉ s.pool.finished) : s.outcomes.lookup k = none := by
  rw [List.lookup_eq_none_iff]
  intro o ho
  rw [bne_iff_ne]
  rintro rfl
  apply hk
  rw [← hs.outcomes]
  exact List.mem_map_of_mem ho

/-- The task that returns is running. -/
theorem running_of_returned {t : ℕ} {r : Except ε α} (h : s.returned a = some (t, r)) :
    ∃ i stolen, s.pool.threads i = .running t stolen := by
  cases a with
  | thread i r' =>
    simp only [returned] at h
    split at h
    · rename_i t' stolen hp
      obtain ⟨rfl, -⟩ := Prod.mk.inj (Option.some.inj h)
      exact ⟨i, stolen, hp⟩
    · cases h
  | _ => cases h

/-- The number of the futures. -/
theorem Kept.length_next (hs : Kept s) (hn : 0 < n) {pool : ThreadPool n}
    (h : ThreadPool.Next release s.pool a.pool pool) : (s.futuresAfter a pool).length = pool.enqueued := by
  cases a with
  | enqueue =>
    rw [ThreadPool.enqueue_next hs.conserved hn h, ← hs.length]
    exact List.length_append
  | destroy => exact hs.length.trans (ThreadPool.enqueued_next h nofun).symm
  | owner =>
    rw [ThreadPool.enqueued_next h nofun, ← hs.length, futuresAfter]
    split
    · exact List.length_mapIdx
    · rfl
  | thread i r =>
    rw [ThreadPool.enqueued_next h nofun, ← hs.length, futuresAfter]
    split
    · exact List.length_modify ..
    · rfl

/-- **The futures after a step** are those that the tasks have to have. -/
theorem Kept.next (hrelease : ∀ c, release c ≠ 0) (hn : 0 < n) (hs : Kept s) (h : step release s a = some s') :
    Kept s' := by
  obtain ⟨pool, hpool, rfl⟩ := Option.map_eq_some_iff.mp h
  have hnext := ThreadPool.next_of_step hpool
  have hopen : s.pool.owner ≠ .gone := by
    intro ho
    rw [step_gone hs.stopping ho] at hpool
    cases hpool
  have hfinished : (s.outcomes ++ (s.returned a).toList).map Prod.fst = pool.finished := by
    rw [List.map_append, hs.outcomes, finished_step hpool]
  refine ⟨hs.conserved.next hnext, hs.stopping.next hrelease hnext, hs.length_next hn hnext, hfinished,
    fun k f hk => ?_⟩
  cases a with
  | enqueue =>
    have hopen' : pool.owner ≠ .gone := open_next hnext nofun hopen
    rw [futureOf_keep (s := s) hopen hopen' (List.append_nil _)]
    simp only [futuresAfter, List.getElem?_append] at hk
    split at hk
    · exact hs.futures k f hk
    · -- the new task has not run
      rename_i hlength
      have hlookup : s.outcomes.lookup k = none := hs.lookup_eq_none fun hf =>
        hlength (by rw [hs.length]; exact hs.conserved.lt_of_finished hf)
      have hpriority : s.pool.priorityQueue.isEmpty = false := by
        rw [hs.conserved.priority.isEmpty_eq, List.isEmpty_eq_false_iff, ← List.length_pos_iff, List.length_finRange]
        exact hn
      rw [hpriority] at hk
      obtain ⟨hlt, rfl⟩ := List.getElem?_eq_some_iff.mp hk
      rw [List.getElem_singleton, futureOf_open hopen, hlookup]
      rfl
  | destroy =>
    have hopen' : pool.owner ≠ .gone := open_next hnext nofun hopen
    rw [futureOf_keep (s := s) hopen hopen' (List.append_nil _)]
    exact hs.futures k f hk
  | owner =>
    simp only [futuresAfter] at hk
    split at hk
    · -- the queues are destroyed
      rename_i hgone
      rw [List.getElem?_mapIdx] at hk
      obtain ⟨f', hf', rfl⟩ := Option.map_eq_some_iff.mp hk
      obtain rfl := hs.futures k f' hf'
      rw [futureOf_open hopen]
      simp only [futureOf, returned, Option.toList, List.append_nil, hgone, true_and]
      cases s.outcomes.lookup k with
      | none =>
        by_cases hq : ∃ i, k ∈ pool.tasks i
        · simp only [if_pos hq, Future.abandon]
        · simp only [if_neg hq]
      | some r =>
        by_cases hq : ∃ i, k ∈ pool.tasks i
        · simp only [if_pos hq, Future.abandon]
        · simp only [if_neg hq]
    · rw [futureOf_keep (s := s) hopen ‹_› (List.append_nil _)]
      exact hs.futures k f hk
  | thread i r =>
    have hopen' : pool.owner ≠ .gone := open_next hnext nofun hopen
    simp only [futuresAfter] at hk
    split at hk
    · -- the function returns
      rename_i t r' hreturned
      rw [List.getElem?_modify] at hk
      obtain ⟨f', hf', rfl⟩ := Option.map_eq_some_iff.mp hk
      obtain rfl := hs.futures k f' hf'
      obtain ⟨j, stolen, hj⟩ := running_of_returned hreturned
      have hlookup : s.outcomes.lookup t = none := hs.lookup_eq_none (hs.conserved.running hj).2.1
      rw [futureOf_open hopen, futureOf_open hopen']
      simp only [hreturned, Option.toList, List.lookup_append]
      by_cases htk : t = k
      · subst htk
        simp only [if_true, hlookup, Option.none_or, List.lookup_cons_self, Future.settle]
      · have hkt : (k == t) = false := beq_eq_false_iff_ne.mpr (Ne.symm htk)
        have hlast : [(t, r')].lookup k = none := by simp only [List.lookup_cons, hkt, List.lookup_nil]
        simp only [if_neg htk, hlast, Option.or_none]
    · rename_i hreturned
      rw [futureOf_keep (s := s) hopen hopen' (by simp only [hreturned]; exact List.append_nil _)]
      exact hs.futures k f hk

theorem kept_of_run (hrelease : ∀ c, release c ≠ 0) (hn : 0 < n) {acts : List (Act n ε α)}
    (hrun : run (step release) {} acts = some s) : Kept s :=
  kept (fun hs h => hs.next hrelease hn h) kept_init hrun

/-- The futures are those that the tasks have to have. -/
theorem Kept.futures_eq (hs : Kept s) : s.futures = (List.range s.pool.enqueued).map s.futureOf := by
  refine List.ext_getElem ?_ fun k hk hk' => ?_
  · rw [hs.length, List.length_map, List.length_range]
  · rw [List.getElem_map, List.getElem_range]
    exact hs.futures k _ (List.getElem?_eq_getElem hk)

/-- A task that has finished has its outcome. -/
theorem Kept.futureOf_finished (hs : Kept s) {k : ℕ} (hk : k ∈ s.pool.finished) : s.futureOf k ≠ .pending := by
  unfold futureOf
  cases hlookup : s.outcomes.lookup k with
  | some r => nofun
  | none =>
    rw [← hs.outcomes] at hk
    obtain ⟨⟨t, r⟩, hr, rfl⟩ := List.mem_map.mp hk
    have hne := List.lookup_eq_none_iff.mp hlookup _ hr
    simp at hne

/-- When the destructor has returned no task is on its way. -/
theorem Kept.settled (hs : Kept s) (ho : s.pool.owner = .gone) {k : ℕ} (hk : k < s.pool.enqueued) :
    s.futureOf k ≠ .pending := by
  rcases hs.conserved.place hk with h | h | ⟨i, hi⟩ | h
  · rw [ho] at h
    exact absurd h (Multiset.notMem_zero k)
  · unfold futureOf
    split
    · nofun
    · rw [if_pos ⟨ho, h⟩]
      nofun
  · rw [hs.stopping.joined i (by rw [ho]; trivial)] at hi
    exact absurd hi (Multiset.notMem_zero k)
  · exact hs.futureOf_finished h

/-- **What the futures say.** In every run of a pool with threads every call of
`enqueue` has its future, and it is a function of the state: ready with what the
one call of the function returned or threw, broken if the destructor has
returned with the task in a queue, and pending otherwise; and no future is
pending when the destructor has returned. -/
theorem futures_of_run (hrelease : ∀ c, release c ≠ 0) (hn : 0 < n) {acts : List (Act n ε α)}
    (hrun : run (step release) {} acts = some s) :
    s.futures = (List.range s.pool.enqueued).map s.futureOf ∧ s.outcomes.map Prod.fst = s.pool.finished ∧
      s.pool.finished.Nodup ∧ (s.pool.owner = .gone → .pending ∉ s.futures) := by
  have hs : Kept s := kept_of_run hrelease hn hrun
  refine ⟨hs.futures_eq, hs.outcomes, ?_, fun ho hmem => ?_⟩
  · exact Multiset.nodup_of_le hs.conserved.finished_le (Multiset.nodup_range _)
  · rw [hs.futures_eq, List.mem_map] at hmem
    obtain ⟨k, hk, hpending⟩ := hmem
    exact hs.settled ho (List.mem_range.mp hk) hpending

/-- A function that throws, and then the destructor. -/
def oneThrows (i : Fin n) : List (Act n ℕ ℕ) :=
  List.flatten [[.enqueue, .owner, .owner, .owner], List.replicate 9 (.thread i (.error 7)),
    [.destroy, .owner, .owner], List.replicate 6 (.thread i (.ok 0)), [.owner, .owner]]

theorem oneThrows_end :
    (run (step Nat.succ) ({} : Promised 1 ℕ ℕ) (oneThrows 0)).map
        (fun s => (s.futures, s.pool.owner, s.pool.threads 0)) =
      some ([.ready (.error 7)], .gone, .exited) := rfl

theorem futures_of_run_one :
    ∃ s, run (step Nat.succ) ({} : Promised 1 ℕ ℕ) (oneThrows 0) = some s ∧ s.futures = [.ready (.error 7)] ∧
      s.futures = (List.range s.pool.enqueued).map s.futureOf ∧ s.outcomes.map Prod.fst = s.pool.finished ∧
      s.pool.finished.Nodup ∧ (s.pool.owner = .gone → .pending ∉ s.futures) := by
  obtain ⟨s, hrun, hend⟩ := Option.map_eq_some_iff.mp oneThrows_end
  exact ⟨s, hrun, (Prod.mk.inj hend).1, futures_of_run Nat.succ_ne_zero one_pos hrun⟩

/-- The second task is left in its queue, and its future is broken. -/
example :
    (run (step Nat.succ) ({} : Promised 1 ℕ ℕ) (List.flatten [[.enqueue, .owner, .owner, .owner],
      List.replicate 7 (.thread 0 (.ok 3)), [.enqueue, .owner, .owner, .owner, .destroy, .owner],
      List.replicate 2 (.thread 0 (.ok 0)), [.owner, .owner, .owner]])).map Promised.futures =
        some [.ready (.ok 3), .broken] := rfl

/-! ### Every future settles -/

section Fair

variable {b : Behaviour (step (n := n) (ε := ε) (α := α) release)}

/-- The steps with which the party goes on. -/
def acts (c : Party n) : Set (Act n ε α) := {a | a.pool ∈ c.acts}

/-- Every party has its turn again and again. -/
def IsFair (b : Behaviour (step (n := n) (ε := ε) (α := α) release)) : Prop := ∀ c : Party n, b.Fair (acts c)

/-- A behaviour of the pool with its futures is one of the pool. -/
def poolBehaviour (b : Behaviour (step (n := n) (ε := ε) (α := α) release)) :
    Behaviour (ThreadPool.step (n := n) release) :=
  b.map Promised.pool (fun _ a => some a.pool)
    (fun h hc => by
      obtain ⟨pool, hpool, rfl⟩ := Option.map_eq_some_iff.mp h
      rw [← Option.some.inj hc]
      exact hpool)
    (fun _ hc => by cases hc)

/-- A function can always return. -/
theorem pool_isFair [Nonempty (Except ε α)] (hfair : IsFair b) : ThreadPool.IsFair (poolBehaviour b) := by
  intro c k
  obtain ⟨m, hkm, hm⟩ := hfair c k
  refine ⟨m, hkm, hm.imp ?_ fun hnone p hp => ?_⟩
  · rintro ⟨a, ha, hact⟩
    refine ⟨a.pool, ha, ?_⟩
    show (b.act m).bind _ = _
    rw [hact]
    rfl
  · obtain ⟨r⟩ := ‹Nonempty (Except ε α)›
    have hpossible : ∃ a : Act n ε α, a.pool = p := by
      cases c with
      | owner =>
        obtain rfl := Set.mem_singleton_iff.mp hp
        exact ⟨.owner, rfl⟩
      | thread i =>
        obtain rfl := Set.mem_singleton_iff.mp hp
        exact ⟨.thread i r, rfl⟩
    obtain ⟨a, rfl⟩ := hpossible
    exact Option.map_eq_none_iff.mp (hnone a hp)

theorem kept_state (hrelease : ∀ c, release c ≠ 0) (hn : 0 < n) (h0 : b.state 0 = {}) (k : ℕ) : Kept (b.state k) :=
  kept_of_run hrelease hn (h0 ▸ b.run_state k)

/-- Without threads every task is dropped. -/
theorem broken_of_run {s : Promised 0 ε α} {acts : List (Act 0 ε α)} (hrun : run (step release) {} acts = some s) :
    ∀ f ∈ s.futures, f = .broken := by
  have hkept : s.pool.Conserved ∧ ∀ f ∈ s.futures, f = .broken := by
    refine kept (I := fun s : Promised 0 ε α => s.pool.Conserved ∧ ∀ f ∈ s.futures, f = .broken) ?_
      ⟨ThreadPool.conserved_init, fun f hf => absurd hf List.not_mem_nil⟩ hrun
    rintro s a s' ⟨hs, hbroken⟩ h
    obtain ⟨pool, hpool, rfl⟩ := Option.map_eq_some_iff.mp h
    refine ⟨hs.next (ThreadPool.next_of_step hpool), ?_⟩
    cases a with
    | enqueue =>
      have hpriority : s.pool.priorityQueue = [] := List.eq_nil_of_length_eq_zero hs.priority.length_eq
      intro f hf
      rcases List.mem_append.mp hf with hf | hf
      · exact hbroken f hf
      · rw [hpriority] at hf
        exact List.mem_singleton.mp hf
    | destroy => exact hbroken
    | owner =>
      intro f hf
      simp only [futuresAfter] at hf
      split at hf
      · obtain ⟨k, hk, rfl⟩ := List.mem_mapIdx.mp hf
        rw [hbroken _ (List.getElem_mem hk)]
        split <;> rfl
      · exact hbroken f hf
    | thread i r => exact i.elim0
  exact hkept.2

/-- **Every future settles.** In every fair behaviour of the pool each future
that `enqueue` has returned is ready or broken at some time, so that `get`
returns, whatever else is enqueued and whether or not the pool is destroyed. -/
theorem every_future_settles [Nonempty (Except ε α)] (hrelease : ∀ c, release c ≠ 0) (hfair : IsFair b)
    (h0 : b.state 0 = {}) {j k : ℕ} (hk : k < (b.state j).futures.length) :
    ∃ m, j ≤ m ∧ ∃ f, (b.state m).futures[k]? = some f ∧ f ≠ .pending := by
  rcases Nat.eq_zero_or_pos n with rfl | hn
  · refine ⟨j, le_rfl, _, List.getElem?_eq_getElem hk, ?_⟩
    have hrun := b.run_state j
    rw [h0] at hrun
    rw [broken_of_run hrun _ (List.getElem_mem hk)]
    nofun
  have hpool := pool_isFair hfair
  have hstart : (poolBehaviour b).state 0 = {} := congrArg Promised.pool h0
  have hkept := kept_state hrelease hn h0
  rw [(hkept j).length] at hk
  -- the future of an enqueued task
  have hget : ∀ m, k < (b.state m).pool.enqueued → (b.state m).futures[k]? = some ((b.state m).futureOf k) := by
    intro m hm
    rw [(hkept m).futures_eq, List.getElem?_map, List.getElem?_range hm]
    rfl
  obtain ⟨m, hjm, hm⟩ := ThreadPool.enqueued_leads_to_finished hrelease hpool hstart k j hk
  rcases hm with hm | hm
  · exact ⟨m, hjm, _, hget m ((hkept m).conserved.lt_of_finished hm), (hkept m).futureOf_finished hm⟩
  · obtain ⟨l, hml, hgone⟩ := ThreadPool.stopping_leads_to_gone hrelease hpool hstart m hm
    have hl : k < (b.state l).pool.enqueued := by
      refine (poolBehaviour b).kept (I := fun s => k < s.enqueued) (fun _ hact h => ?_) hk (hjm.trans hml)
      exact lt_of_lt_of_le h (ThreadPool.enqueued_le (ThreadPool.next_of_step ((poolBehaviour b).moves hact)))
    exact ⟨l, hjm.trans hml, _, hget l hl, (hkept l).settled hgone hl⟩

theorem every_future_settles_one :
    ∃ b : Behaviour (step (n := 1) (ε := ℕ) (α := ℕ) Nat.succ), IsFair b ∧ b.state 0 = {} ∧
      (b.state 1).futures.length = 1 ∧ ∃ m, 1 ≤ m ∧ ∃ f, (b.state m).futures[0]? = some f ∧ f ≠ .pending := by
  obtain ⟨s, hrun, hend⟩ := Option.map_eq_some_iff.mp oneThrows_end
  obtain ⟨howner, hexited⟩ := Prod.mk.inj (Prod.mk.inj hend).2
  have hfair : IsFair (Behaviour.padded hrun) := by
    intro c
    refine Behaviour.fair_padded hrun fun a ha => Option.map_eq_none_iff.mpr ?_
    cases c with
    | owner =>
      rw [Set.mem_singleton_iff.mp ha]
      simp only [ThreadPool.step, ThreadPool.ownerStep, howner]
    | thread i =>
      rw [Set.mem_singleton_iff.mp ha, Fin.fin_one_eq_zero i]
      simp only [ThreadPool.step, ThreadPool.threadStep, hexited]
  have hlength : ((Behaviour.padded hrun).state 1).futures.length = 1 := rfl
  refine ⟨_, hfair, rfl, hlength, every_future_settles Nat.succ_ne_zero hfair rfl (j := 1) ?_⟩
  rw [hlength]
  exact one_pos

end Fair

end Promised

end NiceHttp
