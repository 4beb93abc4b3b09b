/-
# Deadlocks, and the end of the pool

The destructor stops the threads one after the other: it asks for the stop,
raises the semaphore and waits for the thread to return. A thread leaves its
loop only at the test behind the counter, so it may have seen the counter at 0
before the last task was announced, and then goes without it.

The pool has no deadlock: when neither the owner nor a thread can go on, it is
asleep between two calls with every task finished, or it is destroyed
(`no_deadlock`). And the destructor can leave a task behind exactly if every
thread had seen the counter at 0 and not yet come back to its semaphore when the
destructor began, with a task in a queue (`shutdown_finishes_iff`).

Key definitions: `ThreadPool.Stopping`, `ThreadPool.Stuck`,
`ThreadPool.Guarded`, `ThreadPool.Destroyed`.
Key theorems: `ThreadPool.Stopping.next`, `ThreadPool.no_deadlock`,
`ThreadPool.Guarded.next`, `ThreadPool.shutdown_finishes_iff`.
-/
import NiceHttp.Dispatch

namespace NiceHttp

open Places Run

section Owner

variable {n : ℕ}

/-- The destructor has asked thread `i` to stop. -/
def Owner.Asked : Owner n → Fin n → Prop
  | stopping k, i => i < k
  | signalling k, i => i ≤ k
  | joining k, i => i ≤ k
  | gone, _ => True
  | _, _ => False

/-- The destructor has waited for thread `i`. -/
def Owner.Joined : Owner n → Fin n → Prop
  | stopping k, i => i < k
  | signalling k, i => i < k
  | joining k, i => i < k
  | gone, _ => True
  | _, _ => False

/-- The destructor will raise the semaphore of thread `i`. -/
def Owner.WillWake : Owner n → Fin n → Prop
  | stopping k, i => k ≤ i
  | signalling k, i => k ≤ i
  | joining k, i => k < i
  | _, _ => False

/-- The owner is in the destructor, or behind it. -/
def Owner.isStopping : Owner n → Bool
  | stopping _ => true
  | signalling _ => true
  | joining _ => true
  | gone => true
  | _ => false

/-- The thread has seen the counter at 0, and is not back at its semaphore. -/
def Place.isPast : Place → Bool
  | rotating => true
  | testing => true
  | _ => false

theorem Owner.not_asked {o : Owner n} (h : o.isStopping = false) (i : Fin n) : ¬ o.Asked i := by
  cases o with
  | ready => exact id
  | picked => exact id
  | counted => exact id
  | pushed => exact id
  | _ => cases h

theorem Owner.not_joined {o : Owner n} (h : o.isStopping = false) (i : Fin n) : ¬ o.Joined i := by
  cases o with
  | ready => exact id
  | picked => exact id
  | counted => exact id
  | pushed => exact id
  | _ => cases h

end Owner

namespace ThreadPool

variable {n : ℕ} {release : ℕ → ℕ} {s s' : ThreadPool n} {a : Act n}

/-- How far the destructor is. -/
structure Stopping (s : ThreadPool n) : Prop where
  stop : ∀ i, s.stop i = true ↔ s.owner.Asked i
  exited : ∀ i, s.threads i = .exited → s.stop i = true
  joined : ∀ i, s.owner.Joined i → s.threads i = .exited
  woken : ∀ i, s.owner = .joining i → s.threads i = .waiting → s.signal i ≠ 0

theorem stopping_init : Stopping ({} : ThreadPool n) :=
  ⟨fun _ => ⟨nofun, False.elim⟩, fun _ => nofun, fun _ => False.elim, fun _ => nofun⟩

/-- A step of a thread that is asked to stop only if it exits, and does not
come to wait if it is asked to. -/
theorem Stopping.go (hs : Stopping s) {i : Fin n} {p : Place} (hp : s.threads i ≠ .exited)
    (hexit : p = .exited → s.stop i = true) (hwait : p = .waiting → s.stop i = false) : Stopping (s.go i p) := by
  refine ⟨hs.stop, fun j hj => ?_, fun j hj => ?_, fun j ho hj => ?_⟩
  · by_cases hij : j = i
    · subst hij
      rw [go_threads_self] at hj
      exact hexit hj
    · rw [go_threads_ne s hij] at hj
      exact hs.exited j hj
  · have hij : j ≠ i := by
      rintro rfl
      exact hp (hs.joined j hj)
    rw [go_threads_ne s hij]
    exact hs.joined j hj
  · by_cases hij : j = i
    · subst hij
      rw [go_threads_self] at hj
      have hasked : s.owner.Asked j := by
        have hj' : s.owner = .joining j := ho
        rw [hj']
        exact le_refl j
      have hstop := (hs.stop j).mpr hasked
      rw [hwait hj] at hstop
      cases hstop
    · rw [go_threads_ne s hij] at hj
      exact hs.woken j ho hj

/-- A step of the owner outside of the destructor. -/
theorem Stopping.call (hs : Stopping s) (ho : s.owner.isStopping = false) (ho' : s'.owner.isStopping = false)
    (hstop : s'.stop = s.stop) (hthreads : s'.threads = s.threads) : Stopping s' := by
  have hno : ∀ i, ¬ s.stop i = true := fun i hi => Owner.not_asked ho i ((hs.stop i).mp hi)
  refine ⟨fun i => ?_, fun i hi => ?_, fun i hi => absurd hi (Owner.not_joined ho' i), fun i hi => ?_⟩
  · rw [hstop]
    exact iff_of_false (hno i) (Owner.not_asked ho' i)
  · rw [hthreads] at hi
    rw [hstop]
    exact hs.exited i hi
  · rw [hi] at ho'
    cases ho'

/-- **A step of the destructor, or of a thread that it stops.** -/
theorem Stopping.next (hrelease : ∀ c, release c ≠ 0) (hs : Stopping s) (h : Next release s a s') : Stopping s' := by
  cases h with
  | pick ho => exact hs.call (by rw [ho]; rfl) rfl rfl rfl
  | drop => exact hs
  | count ho => exact hs.call (by rw [ho]; rfl) rfl rfl rfl
  | push ho => exact hs.call (by rw [ho]; rfl) rfl rfl rfl
  | raise ho => exact hs.call (by rw [ho]; rfl) rfl rfl rfl
  | destroy ho =>
    have hno : ∀ i, ¬ s.stop i = true := fun i hi => Owner.not_asked (by rw [ho]; rfl) i ((hs.stop i).mp hi)
    exact ⟨fun i => iff_of_false (hno i) (Nat.not_lt_zero _), hs.exited, fun i hi => absurd hi (Nat.not_lt_zero _),
      fun _ => nofun⟩
  | @requestStop k ho hk =>
    refine ⟨fun i => ?_, fun i hi => ?_, fun i hi => ?_, nofun⟩
    · have hstop := hs.stop i
      rw [ho] at hstop
      show Function.update s.stop ⟨k, hk⟩ true i = true ↔ i ≤ ⟨k, hk⟩
      by_cases hik : i = ⟨k, hk⟩
      · subst hik
        simp
      · rw [Function.update_of_ne hik, hstop]
        exact ⟨fun hlt => le_of_lt hlt, fun hle => lt_of_le_of_ne hle fun he => hik (Fin.ext he)⟩
    · show Function.update s.stop ⟨k, hk⟩ true i = true
      by_cases hik : i = ⟨k, hk⟩
      · subst hik
        simp
      · rw [Function.update_of_ne hik]
        exact hs.exited i hi
    · refine hs.joined i ?_
      rw [ho]
      exact hi
  | @wake k ho =>
    refine ⟨fun i => ?_, hs.exited, fun i hi => hs.joined i ?_, fun i hi _ => ?_⟩
    · have hstop := hs.stop i
      rw [ho] at hstop
      exact hstop
    · rw [ho]
      exact hi
    · obtain rfl := Owner.joining.inj hi
      simp only [Function.update_self]
      exact hrelease _
  | @join k ho hk =>
    refine ⟨fun i => ?_, hs.exited, fun i hi => ?_, nofun⟩
    · have hstop := hs.stop i
      rw [ho] at hstop
      exact hstop.trans Nat.lt_succ_iff.symm
    · rcases Nat.lt_succ_iff_lt_or_eq.mp hi with hlt | heq
      · refine hs.joined i ?_
        rw [ho]
        exact hlt
      · rw [Fin.ext heq]
        exact hk
  | @leave k ho hk =>
    have hall : ∀ i : Fin n, (i : ℕ) < k := fun i => lt_of_lt_of_le i.isLt (not_lt.mp hk)
    refine ⟨fun i => ⟨fun _ => trivial, fun _ => (hs.stop i).mpr ?_⟩, hs.exited, fun i _ => hs.joined i ?_, nofun⟩
    · rw [ho]
      exact hall i
    · rw [ho]
      exact hall i
  | @acquire i hp =>
    have hgo := hs.go (i := i) (p := .popping) (by rw [hp]; nofun) nofun nofun
    refine ⟨hgo.stop, hgo.exited, hgo.joined, fun j ho hj => ?_⟩
    have hij : j ≠ i := by
      rintro rfl
      rw [go_threads_self] at hj
      cases hj
    simp only [Function.update_of_ne hij]
    exact hgo.woken j ho hj
  | @pop i t q hp hq =>
    have hgo := hs.go (i := i) (p := .taken t false) (by rw [hp]; nofun) nofun nofun
    exact ⟨hgo.stop, hgo.exited, hgo.joined, hgo.woken⟩
  | empty hp => exact hs.go (by rw [hp]; nofun) nofun nofun
  | @steal i j t q hp _ hq =>
    have hgo := hs.go (i := i) (p := .taken t true) (by rw [hp]; nofun) nofun nofun
    exact ⟨hgo.stop, hgo.exited, hgo.joined, hgo.woken⟩
  | miss hp => exact hs.go (by rw [hp]; nofun) nofun nofun
  | giveUp hp => exact hs.go (by rw [hp]; nofun) nofun nofun
  | @start i t stolen hp =>
    have hgo := hs.go (i := i) (p := .running t stolen) (by rw [hp]; nofun) nofun nofun
    exact ⟨hgo.stop, hgo.exited, hgo.joined, hgo.woken⟩
  | @finish i t stolen hp =>
    have hgo := hs.go (i := i) (p := if stolen then .checking else .popping) (by rw [hp]; nofun)
      (by cases stolen <;> nofun) (by cases stolen <;> nofun)
    exact ⟨hgo.stop, hgo.exited, hgo.joined, hgo.woken⟩
  | again hp => exact hs.go (by rw [hp]; nofun) nofun nofun
  | rest hp => exact hs.go (by rw [hp]; nofun) nofun nofun
  | @rotate i hp =>
    have hgo := hs.go (i := i) (p := .testing) (by rw [hp]; nofun) nofun nofun
    exact ⟨hgo.stop, hgo.exited, hgo.joined, hgo.woken⟩
  | exit hp hstop => exact hs.go (by rw [hp]; nofun) (fun _ => hstop) nofun
  | sleep hp hstop => exact hs.go (by rw [hp]; nofun) nofun fun _ => hstop

theorem stopping_of_run (hrelease : ∀ c, release c ≠ 0) {acts : List (Act n)}
    (hrun : run (step release) {} acts = some s) : Stopping s :=
  kept (fun hs h => hs.next hrelease (next_of_step h)) stopping_init hrun

/-! ### Deadlocks -/

/-- Neither the owner, if it is in a call, nor a thread can go on. -/
def Stuck (release : ℕ → ℕ) (s : ThreadPool n) : Prop := s.ownerStep release = none ∧ ∀ i, s.threadStep i = none

/-- A thread can go on unless it waits in vain or has returned. -/
theorem threadStep_none {i : Fin n} (h : s.threadStep i = none) :
    s.threads i = .waiting ∧ s.signal i = 0 ∨ s.threads i = .exited := by
  unfold threadStep at h
  cases hp : s.threads i with
  | waiting =>
    simp only [hp] at h
    split at h
    · exact Or.inl ⟨rfl, ‹_›⟩
    · cases h
  | exited => exact Or.inr rfl
  | popping =>
    simp only [hp] at h
    split at h <;> cases h
  | stealing j =>
    simp only [hp] at h
    split at h
    · split at h <;> cases h
    · cases h
  | taken => simp [hp] at h
  | running => simp [hp] at h
  | checking => simp [hp] at h
  | rotating => simp [hp] at h
  | testing => simp [hp] at h

theorem ownerStep_none (h : s.ownerStep release = none) :
    s.owner = .ready ∨ s.owner = .gone ∨ ∃ i, s.owner = .joining i ∧ s.threads i ≠ .exited := by
  unfold ownerStep at h
  cases ho : s.owner with
  | ready => exact Or.inl rfl
  | gone => exact Or.inr (Or.inl rfl)
  | joining i =>
    simp only [ho] at h
    split at h
    · cases h
    · exact Or.inr (Or.inr ⟨i, rfl, ‹_›⟩)
  | stopping i =>
    simp only [ho] at h
    split at h <;> cases h
  | picked => simp [ho] at h
  | counted => simp [ho] at h
  | pushed => simp [ho] at h
  | signalling => simp [ho] at h

/-- With no task in a queue or in anyone's hands all are finished. -/
theorem Conserved.finished (hs : Conserved s) (howner : s.owner.tasks = 0) (htasks : ∀ i, s.tasks i = [])
    (hthreads : ∀ i, (s.threads i).tasks = 0) : s.finished.Perm (List.range s.enqueued) := by
  have hqueues : total ThreadSafeQueue.bag s.tasks = 0 := total_eq_zero_iff.mpr fun i => by rw [htasks i]; rfl
  have hhands : total Place.tasks s.threads = 0 := total_eq_zero_iff.mpr hthreads
  have hheld := hs.held
  rw [ThreadPool.held, howner, hqueues, hhands, zero_add, zero_add, zero_add, ← Multiset.coe_range] at hheld
  exact Multiset.coe_eq_coe.mp hheld

/-- When neither the owner nor a thread can go on between two calls, every
thread waits for its semaphore and has nothing in its queue. -/
theorem Stuck.cases (hs : Sound s) (hst : Stopping s) (hstuck : s.Stuck release) :
    s.owner = .gone ∨ s.owner = .ready ∧ ∀ i, s.threads i = .waiting ∧ s.tasks i = [] := by
  rcases ownerStep_none hstuck.1 with ho | ho | ⟨i, ho, hi⟩
  · refine Or.inr ⟨ho, fun i => ?_⟩
    obtain ⟨hplace, hsignal⟩ : s.threads i = .waiting ∧ s.signal i = 0 := by
      refine (threadStep_none (hstuck.2 i)).resolve_right fun he => ?_
      -- a thread that has returned was asked to stop
      have hasked := (hst.stop i).mp (hst.exited i he)
      rw [ho] at hasked
      exact hasked
    refine ⟨hplace, ?_⟩
    by_contra hne
    rcases hs.alert i hne with h | h | h
    · exact h hsignal
    · rw [ho] at h
      cases h
    · rw [hplace] at h
      cases h
  · exact Or.inl ho
  · -- the thread that the destructor waits for was woken
    exfalso
    rcases threadStep_none (hstuck.2 i) with ⟨hp, hsignal⟩ | hp
    · exact hst.woken i ho hp hsignal
    · exact hi hp

/-- **The pool has no deadlock.** When neither the owner nor a thread can go on,
the pool is destroyed, or it is between two calls: then every thread waits, the
queues are empty, the counter is 0, and every task that was enqueued has
finished. -/
theorem no_deadlock (hrelease : ∀ c, release c ≠ 0) {acts : List (Act n)}
    (hrun : run (step release) {} acts = some s) (hstuck : s.Stuck release) :
    s.owner = .gone ∨ s.owner = .ready ∧ (∀ i, s.threads i = .waiting ∧ s.tasks i = []) ∧ s.pendingTasks = 0 ∧
      s.finished.Perm (List.range s.enqueued) := by
  have hs : Sound s := sound_of_run hrelease hrun
  refine (hstuck.cases hs (stopping_of_run hrelease hrun)).imp id fun ⟨ho, hwaiting⟩ => ?_
  have hannounced : s.announced = 0 := by
    have hqueues : total List.length s.tasks = 0 := total_eq_zero_iff.mpr fun i => by rw [(hwaiting i).2]; rfl
    have hhands : total Place.announced s.threads = 0 := total_eq_zero_iff.mpr fun i => by rw [(hwaiting i).1]; rfl
    rw [announced, ho, hqueues, hhands]
    rfl
  refine ⟨ho, hwaiting, by rw [hs.pending, hannounced]; rfl, ?_⟩
  exact hs.toConserved.finished (by rw [ho]; rfl) (fun i => (hwaiting i).2) fun i => by rw [(hwaiting i).1]; rfl

theorem no_deadlock_stolen :
    ∃ s, run (step Nat.succ) ({} : ThreadPool 2) (stolenTask 0 1) = some s ∧ s.enqueued = 2 ∧
      (s.owner = .gone ∨ s.owner = .ready ∧ (∀ i, s.threads i = .waiting ∧ s.tasks i = []) ∧ s.pendingTasks = 0 ∧
        s.finished.Perm (List.range s.enqueued)) := by
  obtain ⟨s, hrun, henqueued, hstuck⟩ : ∃ s, run (step Nat.succ) ({} : ThreadPool 2) (stolenTask 0 1) = some s ∧
      s.enqueued = 2 ∧ s.Stuck Nat.succ := ⟨_, rfl, rfl, rfl, Fin.forall_fin_two.mpr ⟨rfl, rfl⟩⟩
  exact ⟨s, hrun, henqueued, no_deadlock Nat.succ_ne_zero hrun hstuck⟩

/-! ### The destructor -/

/-- Nothing is left in the queues, or a thread will look at the counter before
it exits: it is awake, or it waits and is to be woken. -/
def Guarded (s : ThreadPool n) : Prop :=
  (∀ i, s.tasks i = []) ∨
    ∃ i, (s.threads i).isAwake = true ∨ s.threads i = .waiting ∧ (s.signal i ≠ 0 ∨ s.owner.WillWake i)

/-- A thread that is awake after its step guards the queues. -/
theorem guarded_go {i : Fin n} {p : Place} (hthreads : s'.threads = (s.go i p).threads) (hp : p.isAwake = true) :
    Guarded s' := by
  refine Or.inr ⟨i, Or.inl ?_⟩
  rw [hthreads, go_threads_self]
  exact hp

/-- A step of a thread behind the counter leaves the guards alone. -/
theorem Guarded.behind (hs : Guarded s) {i : Fin n} {p : Place} (hawake : (s.threads i).isAwake = false)
    (hwaiting : s.threads i ≠ .waiting) : Guarded (s.go i p) := by
  refine hs.imp id fun ⟨j, hj⟩ => ⟨j, ?_⟩
  have hij : j ≠ i := by
    rintro rfl
    rcases hj with hj | ⟨hj, -⟩
    · rw [hawake] at hj
      cases hj
    · exact hwaiting hj
  rw [go_threads_ne s hij]
  exact hj

/-- A step of the owner that takes no wakeup from a thread. -/
theorem Guarded.wakes (hs : Guarded s) (htasks : s'.tasks = s.tasks) (hthreads : s'.threads = s.threads)
    (hwake : ∀ i, s.signal i ≠ 0 ∨ s.owner.WillWake i → s'.signal i ≠ 0 ∨ s'.owner.WillWake i) : Guarded s' := by
  unfold Guarded
  rw [htasks, hthreads]
  exact hs.imp id fun ⟨i, hi⟩ => ⟨i, hi.imp id fun ⟨hp, hw⟩ => ⟨hp, hwake i hw⟩⟩

/-- **A step while the destructor runs** leaves a guard of the queues. -/
theorem Guarded.next (hrelease : ∀ c, release c ≠ 0) (hs : Guarded s) (hc : Conserved s)
    (ho : s.owner.isStopping = true) (h : Next release s a s') : Guarded s' := by
  have hno : ∀ {o : Owner n}, s.owner = o → o.isStopping = false → Guarded s' := by
    rintro o rfl hne
    rw [hne] at ho
    cases ho
  cases h with
  | pick ho => exact hno ho rfl
  | drop ho => exact hno ho rfl
  | count ho => exact hno ho rfl
  | push ho => exact hno ho rfl
  | raise ho => exact hno ho rfl
  | destroy ho => exact hno ho rfl
  | @requestStop k ho hk =>
    refine hs.wakes rfl rfl fun i => Or.imp id fun hw => ?_
    rw [ho] at hw
    exact hw
  | @wake k ho =>
    refine hs.wakes rfl rfl fun i hi => ?_
    by_cases hik : i = k
    · subst hik
      left
      simp only [Function.update_self]
      exact hrelease _
    · simp only [Function.update_of_ne hik]
      refine hi.imp id fun hw => ?_
      rw [ho] at hw
      exact lt_of_le_of_ne hw fun he => hik he.symm
  | @join k ho hk =>
    refine hs.wakes rfl rfl fun i => Or.imp id fun hw => ?_
    rw [ho] at hw
    exact hw
  | @leave k ho hk =>
    refine hs.wakes rfl rfl fun i => Or.imp id fun hw => ?_
    rw [ho] at hw
    exact absurd (lt_of_le_of_lt hw i.isLt) hk
  | acquire => exact guarded_go rfl rfl
  | pop => exact guarded_go rfl rfl
  | empty => exact guarded_go rfl rfl
  | steal => exact guarded_go rfl rfl
  | miss => exact guarded_go rfl rfl
  | giveUp => exact guarded_go rfl rfl
  | start => exact guarded_go rfl rfl
  | @finish i t stolen hp => exact guarded_go rfl (by cases stolen <;> rfl)
  | again => exact guarded_go rfl rfl
  | rest hp hle =>
    -- the counter is 0, so the queues are empty, and the destructor adds nothing
    refine Or.inl fun i => tasks_of_announced (s := s) ?_ i
    have := hc.pending
    omega
  | @rotate i hp => exact hs.behind (by rw [hp]; rfl) (by rw [hp]; nofun)
  | exit hp => exact hs.behind (by rw [hp]; rfl) (by rw [hp]; nofun)
  | sleep hp => exact hs.behind (by rw [hp]; rfl) (by rw [hp]; nofun)

/-- The destructor is what starts the end, and there is no way back. -/
theorem isStopping_next (h : Next release s a s') :
    s'.owner.isStopping = true ↔ s.owner.isStopping = true ∨ a = .destroy := by
  cases h with
  | pick ho => simp [ho, Owner.isStopping]
  | count ho => simp [ho, Owner.isStopping]
  | push ho => simp [ho, Owner.isStopping]
  | raise ho => simp [ho, Owner.isStopping]
  | destroy ho => simp [Owner.isStopping]
  | requestStop ho => simp [ho, Owner.isStopping]
  | wake ho => simp [ho, Owner.isStopping]
  | join ho => simp [ho, Owner.isStopping]
  | leave ho => simp [ho, Owner.isStopping]
  | _ => exact ⟨Or.inl, fun h => h.resolve_right nofun⟩

/-- What the destructor keeps while it runs. -/
structure Ending (k : ℕ) (s : ThreadPool n) : Prop where
  conserved : Conserved s
  stopping : Stopping s
  isStopping : s.owner.isStopping = true
  enqueued : s.enqueued = k

theorem Ending.next (hrelease : ∀ c, release c ≠ 0) {k : ℕ} (hs : Ending k s) (h : Next release s a s') :
    Ending k s' := by
  refine ⟨hs.conserved.next h, hs.stopping.next hrelease h, (isStopping_next h).mpr (Or.inl hs.isStopping), ?_⟩
  cases h with
  | pick ho =>
    have hstopping := hs.isStopping
    rw [ho] at hstopping
    cases hstopping
  | _ => exact hs.enqueued

/-- The destructor, called in the one state, returns in the other. -/
def Destroyed (release : ℕ → ℕ) (s s' : ThreadPool n) : Prop :=
  ∃ acts, run (step release) s (.destroy :: acts) = some s' ∧ s'.owner = .gone

/-- The destructor starts with a pool between two calls. -/
theorem Destroyed.start (h : Destroyed release s s') :
    s.owner = .ready ∧ ∃ acts, run (step release) { s with owner := .stopping 0 } acts = some s' := by
  obtain ⟨acts, hrun, -⟩ := h
  rw [run_cons] at hrun
  obtain ⟨t, ht, hrest⟩ := Option.bind_eq_some_iff.mp hrun
  cases next_of_step ht with
  | destroy ho => exact ⟨ho, acts, hrest⟩

/-- Every thread has returned when the destructor has. -/
theorem Destroyed.ending (hrelease : ∀ c, release c ≠ 0) (hs : Conserved s) (hst : Stopping s)
    (h : Destroyed release s s') : Ending s.enqueued s' ∧ ∀ i, s'.threads i = .exited := by
  obtain ⟨ho, acts, hrun⟩ := h.start
  have hstart : Next release s .destroy { s with owner := .stopping 0 } := .destroy ho
  have hend : Ending s.enqueued s' :=
    kept (fun hs h => hs.next hrelease (next_of_step h))
      ⟨hs.next hstart, hst.next hrelease hstart, rfl, rfl⟩ hrun
  obtain ⟨-, -, hgone⟩ := h
  refine ⟨hend, fun i => hend.stopping.joined i ?_⟩
  rw [hgone]
  trivial

/-- The destructor goes by a thread that is past the counter. -/
theorem stop_past {k : Fin n} (ho : s.owner = .stopping k) (hk : (s.threads k).isPast = true) :
    ∃ acts s', run (step release) s acts = some s' ∧ s'.owner = .stopping (k + 1) ∧ s'.tasks = s.tasks ∧
      s'.finished = s.finished ∧ ∀ j, j ≠ k → s'.threads j = s.threads j := by
  -- the stop is asked for, the thread exits at its test, and is signalled and joined
  have htest : ∀ u : ThreadPool n, u.owner = .stopping k → u.threads k = .testing →
      ∃ u', run (step release) u [.owner, .thread k, .owner, .owner] = some u' ∧ u'.owner = .stopping (k + 1) ∧
        u'.tasks = u.tasks ∧ u'.finished = u.finished ∧ ∀ j, j ≠ k → u'.threads j = u.threads j := by
    intro u hu hp
    refine ⟨{ u.go k .exited with
      stop := Function.update u.stop k true
      signal := Function.update u.signal k (release (u.signal k))
      owner := .stopping (k + 1) }, ?_, rfl, rfl, rfl, fun j hj => go_threads_ne u hj _⟩
    simp [step, ownerStep, threadStep, hu, hp, go, run]
  cases hp : s.threads k with
  | testing =>
    obtain ⟨u', hu⟩ := htest s ho hp
    exact ⟨_, u', hu⟩
  | rotating =>
    let u : ThreadPool n := { s.go k .testing with priorityQueue := s.priorityQueue.rotateToFront k }
    obtain ⟨u', hrun, hu⟩ := htest u ho (go_threads_self s k .testing)
    refine ⟨[.thread k, .owner, .thread k, .owner, .owner], u', ?_, hu.1, hu.2.1, hu.2.2.1, fun j hj => ?_⟩
    · have hstep : step release s (.thread k) = some u := by simp only [step, threadStep, hp]; rfl
      rw [run_cons, hstep]
      exact hrun
    · rw [hu.2.2.2 j hj]
      exact go_threads_ne s hj _
  | _ => rw [hp] at hk; cases hk

/-- With all threads past the counter, a run of the destructor leaves the
queues as they are. -/
theorem stop_all_past (ho : s.owner = .stopping 0) (hpast : ∀ i, (s.threads i).isPast = true) :
    ∃ acts s', run (step release) s acts = some s' ∧ s'.owner = .gone ∧ s'.tasks = s.tasks ∧
      s'.finished = s.finished := by
  have hfirst : ∀ k, k ≤ n → ∃ acts s', run (step release) s acts = some s' ∧ s'.owner = .stopping k ∧
      s'.tasks = s.tasks ∧ s'.finished = s.finished ∧ ∀ j : Fin n, k ≤ j → s'.threads j = s.threads j := by
    intro k
    induction k with
    | zero => exact fun _ => ⟨[], s, rfl, ho, rfl, rfl, fun _ _ => rfl⟩
    | succ k ih =>
      intro hk
      obtain ⟨acts, t, hrun, hto, htasks, hfinished, hthreads⟩ := ih (Nat.le_of_succ_le hk)
      have hthread := hthreads ⟨k, hk⟩ (le_refl k)
      obtain ⟨acts', t', hrun', hto', htasks', hfinished', hthreads'⟩ :=
        @stop_past n release t ⟨k, hk⟩ hto (by rw [hthread]; exact hpast _)
      refine ⟨acts ++ acts', t', ?_, hto', htasks'.trans htasks, hfinished'.trans hfinished, fun j hj => ?_⟩
      · rw [run_append, hrun]
        exact hrun'
      · rw [hthreads' j fun he => absurd hj (by rw [he]; exact Nat.not_succ_le_self k)]
        exact hthreads j (Nat.le_of_succ_le hj)
  obtain ⟨acts, t, hrun, hto, htasks, hfinished, -⟩ := hfirst n (le_refl n)
  refine ⟨acts ++ [.owner], { t with owner := .gone }, ?_, rfl, htasks, hfinished⟩
  rw [run_concat, hrun]
  simp [step, ownerStep, hto]

/-- A thread that comes to look at the counter again leaves no task behind. -/
theorem Destroyed.finished (hrelease : ∀ c, release c ≠ 0) (hs : Conserved s) (hst : Stopping s)
    (hleft : (∀ i, s.tasks i = []) ∨ ∃ i, (s.threads i).isPast = false) (h : Destroyed release s s') :
    s'.finished.Perm (List.range s.enqueued) := by
  obtain ⟨hend, hexited⟩ := h.ending hrelease hs hst
  obtain ⟨ho, acts, hrun⟩ := h.start
  have hstart : Next release s .destroy { s with owner := .stopping 0 } := .destroy ho
  have hguarded : Guarded { s with owner := .stopping 0 } := by
    refine hleft.imp id fun ⟨i, hi⟩ => ⟨i, ?_⟩
    show (s.threads i).isAwake = true ∨ s.threads i = .waiting ∧ (s.signal i ≠ 0 ∨ 0 ≤ (i : ℕ))
    cases hp : s.threads i with
    | waiting => exact Or.inr ⟨rfl, Or.inr (Nat.zero_le _)⟩
    | exited =>
      have hasked := (hst.stop i).mp (hst.exited i hp)
      rw [ho] at hasked
      exact hasked.elim
    | rotating => rw [hp] at hi; cases hi
    | testing => rw [hp] at hi; cases hi
    | _ => exact Or.inl rfl
  have hboth : Ending s.enqueued s' ∧ Guarded s' :=
    kept (I := fun t => Ending s.enqueued t ∧ Guarded t)
      (fun hs h => ⟨hs.1.next hrelease (next_of_step h),
        hs.2.next hrelease hs.1.conserved hs.1.isStopping (next_of_step h)⟩)
      ⟨⟨hs.next hstart, hst.next hrelease hstart, rfl, rfl⟩, hguarded⟩ hrun
  obtain ⟨-, -, hgone⟩ := h
  have hempty : ∀ i, s'.tasks i = [] := by
    refine hboth.2.resolve_right ?_
    rintro ⟨i, hi | ⟨hi, -⟩⟩
    · rw [hexited i] at hi
      cases hi
    · rw [hexited i] at hi
      cases hi
  rw [← hend.enqueued]
  exact hend.conserved.finished (by rw [hgone]; rfl) hempty fun i => by rw [hexited i]; rfl

/-- **When the destructor leaves a task behind.** All threads have returned
when the destructor has. Every task that was enqueued has finished by then, in
whatever order the threads go on, if and only if the queues were empty when it
began, or one of the threads had not seen the counter at 0 or was back at its
semaphore. -/
theorem shutdown_finishes_iff (hrelease : ∀ c, release c ≠ 0) {acts : List (Act n)}
    (hrun : run (step release) {} acts = some s) (ho : s.owner = .ready) :
    (∀ s', Destroyed release s s' → ∀ i, s'.threads i = .exited) ∧
    ((∀ s', Destroyed release s s' → s'.finished.Perm (List.range s.enqueued)) ↔
      (∀ i, s.tasks i = []) ∨ ∃ i, (s.threads i).isPast = false) := by
  have hs : Conserved s := conserved_of_run hrun
  have hst : Stopping s := stopping_of_run hrelease hrun
  refine ⟨fun s' h => (h.ending hrelease hs hst).2, fun hall => ?_, fun hleft s' h =>
    h.finished hrelease hs hst hleft⟩
  by_contra hno
  obtain ⟨hqueue, hpast⟩ := not_or.mp hno
  simp only [not_exists, Bool.not_eq_false] at hpast
  obtain ⟨acts', s', hrun', hgone, htasks, hfinished⟩ :=
    @stop_all_past n release { s with owner := .stopping 0 } rfl hpast
  have hdestroy : step release s .destroy = some { s with owner := .stopping 0 } := by simp [step, ho]
  have hdestroyed : Destroyed release s s' := ⟨acts', by rw [run_cons, hdestroy]; exact hrun', hgone⟩
  obtain ⟨hend, hexited⟩ := hdestroyed.ending hrelease hs hst
  -- what is finished is all there is, so the queues are empty
  have hheld := hend.conserved.held
  rw [ThreadPool.held, Multiset.coe_eq_coe.mpr (hall s' hdestroyed), Multiset.coe_range, ← hend.enqueued,
    add_eq_right, add_eq_zero, add_eq_zero] at hheld
  refine hqueue fun i => ?_
  have hbag := total_eq_zero_iff.mp hheld.1.2 i
  rw [htasks] at hbag
  exact (Multiset.coe_eq_zero _).mp hbag

theorem shutdown_finishes_iff_one :
    ∃ s, run (step Nat.succ) ({} : ThreadPool 1) oneTask = some s ∧
      (∀ s', Destroyed Nat.succ s s' → ∀ i, s'.threads i = .exited) ∧
      ((∀ s', Destroyed Nat.succ s s' → s'.finished.Perm (List.range s.enqueued)) ↔
        (∀ i, s.tasks i = []) ∨ ∃ i, (s.threads i).isPast = false) := by
  obtain ⟨s, hrun, ho⟩ : ∃ s, run (step Nat.succ) ({} : ThreadPool 1) oneTask = some s ∧ s.owner = .ready :=
    ⟨_, rfl, rfl⟩
  exact ⟨s, hrun, shutdown_finishes_iff Nat.succ_ne_zero hrun ho⟩

/-- The only thread has seen the counter at 0 when the second task comes, and
is asked to stop before it is back. -/
example :
    (run (step Nat.succ) ({} : ThreadPool 1) (oneTask.take 11 ++
      [.enqueue, .owner, .owner, .owner, .destroy, .owner, .thread 0, .thread 0, .owner, .owner, .owner])).map
        (fun s => (s.owner, s.finished, s.tasks 0)) = some (.gone, [0], [1]) := rfl

end ThreadPool

end NiceHttp
