/-
# No task starves

Behaviours of the pool that go on for ever, with new tasks again and again. A
behaviour is fair if the owner, inside a call, and every thread have their turn
again and again; a task is one step of its thread, so every task returns.

A task in a queue is never overtaken by more tasks: its thread takes from the
front, the others steal from the back, and new ones come behind it. So its
place in the queue does not grow, and the thread comes back to the queue, since
the counter is positive, the semaphore up, or the owner about to raise it
(`ThreadPool.distance`). In every fair behaviour each task that is enqueued
finishes, or the destructor begins (`enqueued_leads_to_finished`).

Key definitions: `Party`, `ThreadPool.IsFair`, `ThreadPool.Asleep`,
`ThreadPool.distance`.
Key theorems: `ThreadPool.queue_next`, `ThreadPool.distance_thread`,
`ThreadPool.queued_leads_to_taken`, `ThreadPool.enqueued_leads_to_finished`.
-/
import NiceHttp.Shutdown
import NiceHttp.Lib.Fair

namespace NiceHttp

open Places Run

/-- The owner of the pool, or one of its threads. -/
inductive Party (n : ℕ) where
  | owner
  | thread (i : Fin n)

/-- The steps with which the party goes on. -/
def Party.acts {n : ℕ} : Party n → Set (Act n)
  | owner => {.owner}
  | thread i => {.thread i}

/-- How many steps a thread makes at most before it looks at its queue. -/
def Place.distance (n : ℕ) : Place → ℕ
  | popping => 0
  | checking => 1
  | running _ stolen => if stolen then 2 else 1
  | taken _ stolen => if stolen then 3 else 2
  | stealing j => 4 + (n - j)
  | waiting => 1
  | testing => 3
  | rotating => 4
  | exited => 0

namespace ThreadPool

variable {n : ℕ} {release : ℕ → ℕ} {s s' : ThreadPool n} {a : Act n}

/-- Every party has its turn again and again. -/
def IsFair (b : Behaviour (step (n := n) release)) : Prop := ∀ c : Party n, b.Fair c.acts

/-- The thread waits and its semaphore is down. -/
def Asleep (s : ThreadPool n) (i : Fin n) : Prop := s.threads i = .waiting ∧ s.signal i = 0

instance (s : ThreadPool n) (i : Fin n) : Decidable (s.Asleep i) := inferInstanceAs (Decidable (_ ∧ _))

/-- How many steps lead the thread to its queue, with the one that wakes it. -/
def distance (s : ThreadPool n) (i : Fin n) : ℕ := (s.threads i).distance n + if s.Asleep i then 1 else 0

/-- The party whose step brings the thread nearer to its queue. -/
def helper (s : ThreadPool n) (i : Fin n) : Party n := if s.Asleep i then .owner else .thread i

/-! ### What a step leaves alone -/

/-- A step moves no other thread. -/
theorem threads_next {i : Fin n} (h : Next release s a s') (ha : a ≠ .thread i) : s'.threads i = s.threads i := by
  have hgo : ∀ {j : Fin n} (p : Place), a = .thread j → (s.go j p).threads i = s.threads i := by
    rintro j p rfl
    exact go_threads_ne s (fun he => ha (congrArg Act.thread he.symm)) p
  cases h with
  | acquire => exact hgo _ rfl
  | pop => exact hgo _ rfl
  | empty => exact hgo _ rfl
  | steal => exact hgo _ rfl
  | miss => exact hgo _ rfl
  | giveUp => exact hgo _ rfl
  | start => exact hgo _ rfl
  | finish => exact hgo _ rfl
  | again => exact hgo _ rfl
  | rest => exact hgo _ rfl
  | rotate => exact hgo _ rfl
  | exit => exact hgo _ rfl
  | sleep => exact hgo _ rfl
  | _ => rfl

/-- A semaphore that is up is taken down by its thread only. -/
theorem signal_next (hrelease : ∀ c, release c ≠ 0) {i : Fin n} (h : Next release s a s') (ha : a ≠ .thread i)
    (hi : s.signal i ≠ 0) : s'.signal i ≠ 0 := by
  have hraise : ∀ j, Function.update s.signal j (release (s.signal j)) i ≠ 0 := by
    intro j
    by_cases hij : i = j
    · subst hij
      rw [Function.update_self]
      exact hrelease _
    · rw [Function.update_of_ne hij]
      exact hi
  cases h with
  | raise => exact hraise _
  | wake => exact hraise _
  | @acquire j =>
    show Function.update s.signal j (s.signal j - 1) i ≠ 0
    rw [Function.update_of_ne fun he => ha (congrArg Act.thread he.symm)]
    exact hi
  | _ => exact hi

/-- An owner in a call goes on by its own steps only. -/
theorem owner_next (h : Next release s a s') (ha : a ≠ .owner) (ho : s.owner ≠ .ready) : s'.owner = s.owner := by
  cases h with
  | pick hready => exact absurd hready ho
  | drop hready => exact absurd hready ho
  | destroy hready => exact absurd hready ho
  | count => exact absurd rfl ha
  | push => exact absurd rfl ha
  | raise => exact absurd rfl ha
  | requestStop => exact absurd rfl ha
  | wake => exact absurd rfl ha
  | join => exact absurd rfl ha
  | leave => exact absurd rfl ha
  | _ => rfl

/-! ### The place of a task in its queue -/

/-- **A queue changes at its ends**: a task is added at the back, taken from the
front by its thread, or stolen from the back. -/
theorem queue_next (h : Next release s a s') (i : Fin n) :
    s'.tasks i = s.tasks i ∨ (∃ t, s'.tasks i = s.tasks i ++ [t]) ∨
      (∃ t, a = .thread i ∧ s.threads i = .popping ∧ s.tasks i = t :: s'.tasks i) ∨
      ∃ t j, s.tasks i = s'.tasks i ++ [t] ∧ s'.threads j = .taken t true := by
  cases h with
  | @push j t =>
    by_cases hij : i = j
    · subst hij
      exact Or.inr (Or.inl ⟨t, Function.update_self ..⟩)
    · exact Or.inl (Function.update_of_ne hij ..)
  | @pop j t q hp hq =>
    by_cases hij : i = j
    · subst hij
      refine Or.inr (Or.inr (Or.inl ⟨t, rfl, hp, ?_⟩))
      simp only [Function.update_self]
      exact hq
    · exact Or.inl (Function.update_of_ne hij ..)
  | @steal j k t q hp hk hq =>
    by_cases hij : i = victim j k
    · subst hij
      refine Or.inr (Or.inr (Or.inr ⟨t, j, ?_, go_threads_self ..⟩))
      simp only [Function.update_self]
      exact hq
    · exact Or.inl (Function.update_of_ne hij ..)
  | _ => exact Or.inl rfl

/-- A thread that looks at its queue takes the front. -/
theorem popping_step {i : Fin n} (h : step release s (.thread i) = some s') (hp : s.threads i = .popping)
    (hq : s.tasks i ≠ []) : ∃ t, s.tasks i = t :: s'.tasks i ∧ s'.threads i = .taken t false := by
  simp only [step, threadStep, hp] at h
  split at h
  · rename_i t q hpop
    cases h
    refine ⟨t, ?_, go_threads_self ..⟩
    simp only [Function.update_self]
    exact ThreadSafeQueue.popFront_eq_some.mp hpop
  · exact absurd (ThreadSafeQueue.popFront_eq_none.mp ‹_›) hq

/-- **A task in a queue is not pushed back.** It is taken, or it is not behind
its place, and nearer to the front if its thread took that. -/
theorem idxOf_next (h : step release s a = some s') {i : Fin n} {t : ℕ} (ht : t ∈ s.tasks i) :
    (∃ j stolen, s'.threads j = .taken t stolen) ∨
      t ∈ s'.tasks i ∧ (s'.tasks i).idxOf t ≤ (s.tasks i).idxOf t ∧
        (a = .thread i → s.threads i = .popping → (s'.tasks i).idxOf t < (s.tasks i).idxOf t) := by
  by_cases hpop : a = .thread i ∧ s.threads i = .popping
  · obtain ⟨rfl, hp⟩ := hpop
    obtain ⟨u, hq, hu⟩ := popping_step h hp (List.ne_nil_of_mem ht)
    by_cases hut : u = t
    · exact Or.inl ⟨i, false, by rw [hu, hut]⟩
    · right
      have hlt : (s'.tasks i).idxOf t < (s.tasks i).idxOf t := by
        rw [hq, List.idxOf_cons_ne _ hut]
        exact Nat.lt_succ_self _
      rw [hq] at ht
      exact ⟨(List.mem_cons.mp ht).resolve_left (Ne.symm hut), hlt.le, fun _ _ => hlt⟩
  · have hkeep : ∀ {q : ThreadSafeQueue ℕ}, q.idxOf t = (s.tasks i).idxOf t → q.idxOf t ≤ (s.tasks i).idxOf t ∧
        (a = .thread i → s.threads i = .popping → q.idxOf t < (s.tasks i).idxOf t) :=
      fun he => ⟨he.le, fun ha hp => absurd ⟨ha, hp⟩ hpop⟩
    rcases queue_next (next_of_step h) i with hq | ⟨u, hq⟩ | ⟨u, ha, hp, -⟩ | ⟨u, j, hq, hu⟩
    · exact Or.inr ⟨hq ▸ ht, hkeep (congrArg _ hq)⟩
    · refine Or.inr ⟨hq ▸ List.mem_append_left _ ht, hkeep ?_⟩
      rw [hq, List.idxOf_append_of_mem ht]
    · exact absurd ⟨ha, hp⟩ hpop
    · by_cases hmem : t ∈ s'.tasks i
      · refine Or.inr ⟨hmem, hkeep ?_⟩
        rw [hq, List.idxOf_append_of_mem hmem]
      · rw [hq, List.mem_append, or_iff_right hmem, List.mem_singleton] at ht
        exact Or.inl ⟨j, true, by rw [hu, ht]⟩

/-! ### The way of a thread to its queue -/

/-- **A thread comes nearer to its queue** by its steps, while the counter is
positive and it is not asked to stop. -/
theorem distance_thread {i : Fin n} (h : Next release s (.thread i) s') (hpending : 0 < s.pendingTasks)
    (hstop : s.stop i = false) (hpop : s.threads i ≠ .popping) : s'.distance i < s.distance i := by
  -- a place that is not at the semaphore
  have hplace : ∀ {o p : Place}, s.threads i = o → s'.threads i = p → p ≠ .waiting → p.distance n < o.distance n →
      s'.distance i < s.distance i := by
    rintro o p rfl rfl hp hlt
    have hasleep : ¬ s'.Asleep i := fun hs => hp hs.1
    rw [distance, distance, if_neg hasleep]
    omega
  cases h with
  | acquire hp => exact hplace hp (go_threads_self ..) nofun Nat.zero_lt_one
  | pop hp => exact absurd hp hpop
  | empty hp => exact absurd hp hpop
  | steal hp hj =>
    apply hplace hp (go_threads_self ..) nofun
    simp only [Place.distance, if_true]
    omega
  | miss hp hj =>
    apply hplace hp (go_threads_self ..) nofun
    simp only [Place.distance]
    omega
  | giveUp hp =>
    apply hplace hp (go_threads_self ..) nofun
    simp only [Place.distance]
    omega
  | @start _ t stolen hp =>
    apply hplace hp (go_threads_self ..) nofun
    cases stolen <;> simp [Place.distance]
  | @finish _ t stolen hp =>
    apply hplace hp (go_threads_self ..) (by cases stolen <;> nofun)
    cases stolen <;> simp [Place.distance]
  | again hp => exact hplace hp (go_threads_self ..) nofun Nat.zero_lt_one
  | rest _ hle => omega
  | rotate hp => exact hplace hp (go_threads_self ..) nofun (Nat.lt_succ_self 3)
  | exit _ hs =>
    rw [hstop] at hs
    cases hs
  | sleep hp =>
    have hdistance : s.distance i = 3 := by
      have hasleep : ¬ s.Asleep i := by
        rintro ⟨hw, -⟩
        rw [hp] at hw
        cases hw
      rw [distance, hp, if_neg hasleep]
      rfl
    rw [hdistance, distance, go_threads_self]
    simp only [Place.distance]
    split <;> omega

/-- **The steps of the others** leave it where it is, or wake it. -/
theorem distance_other (hrelease : ∀ c, release c ≠ 0) {i : Fin n} (h : Next release s a s') (ha : a ≠ .thread i) :
    s'.distance i = s.distance i ∧ (s'.Asleep i ↔ s.Asleep i) ∨ s'.distance i < s.distance i := by
  have hthreads := threads_next h ha
  have hmono : s'.Asleep i → s.Asleep i := by
    rintro ⟨hp, hsignal⟩
    refine ⟨hthreads ▸ hp, ?_⟩
    by_contra hne
    exact signal_next hrelease h ha hne hsignal
  rw [distance, distance, hthreads]
  by_cases hasleep : s.Asleep i
  · by_cases hasleep' : s'.Asleep i
    · left
      rw [if_pos hasleep, if_pos hasleep']
      exact ⟨rfl, iff_of_true hasleep' hasleep⟩
    · right
      rw [if_pos hasleep, if_neg hasleep']
      exact Nat.lt_succ_self _
  · left
    rw [if_neg hasleep, if_neg fun h => hasleep (hmono h)]
    exact ⟨rfl, iff_of_false (fun h => hasleep (hmono h)) hasleep⟩

theorem distance_lt (s : ThreadPool n) (i : Fin n) : s.distance i < n + 5 := by
  have hplace : (s.threads i).distance n ≤ n + 4 := by
    cases s.threads i with
    | running t stolen => cases stolen <;> simp [Place.distance]
    | taken t stolen => cases stolen <;> simp [Place.distance]
    | stealing j =>
      simp only [Place.distance]
      omega
    | _ => simp [Place.distance]
  by_cases hasleep : s.Asleep i
  · rw [distance, hasleep.1, if_pos hasleep]
    simp [Place.distance]
  · rw [distance, if_neg hasleep]
    omega

/-! ### Fair behaviours -/

section Fair

variable {b : Behaviour (step (n := n) release)}

theorem sound_state (hrelease : ∀ c, release c ≠ 0) (h0 : b.state 0 = {}) (k : ℕ) : Sound (b.state k) :=
  sound_of_run hrelease (h0 ▸ b.run_state k)

theorem stopping_state (hrelease : ∀ c, release c ≠ 0) (h0 : b.state 0 = {}) (k : ℕ) : Stopping (b.state k) :=
  stopping_of_run hrelease (h0 ▸ b.run_state k)

/-- The counter counts a task in a queue. -/
theorem Conserved.pending_pos (hs : Conserved s) {i : Fin n} (h : s.tasks i ≠ []) : 0 < s.pendingTasks := by
  by_contra hno
  have hpending := hs.pending
  exact h (tasks_of_announced (s := s) (by omega) i)

/-- The owner is about to wake a thread that sleeps with a task in its queue. -/
theorem Sound.owner_pushed (hs : Sound s) {i : Fin n} (hi : s.tasks i ≠ []) (hasleep : s.Asleep i) :
    s.owner = .pushed i := by
  obtain ⟨hp, hsignal⟩ := hasleep
  rcases hs.alert i hi with h | h | h
  · exact absurd hsignal h
  · exact h
  · rw [hp] at h
    cases h

theorem Sound.owner_wakes (hs : Sound s) (hrelease : ∀ c, release c ≠ 0) {i : Fin n} (hi : s.tasks i ≠ [])
    (hasleep : s.Asleep i) (h : step release s .owner = some s') : ¬ s'.Asleep i := by
  simp only [step, ownerStep, hs.owner_pushed hi hasleep] at h
  cases h
  rintro ⟨-, hsignal⟩
  simp only [Function.update_self] at hsignal
  exact hrelease _ hsignal

/-- A thread with a task in its queue can go on, or the owner raises its
semaphore. -/
theorem Sound.helper_possible (hs : Sound s) (hst : Stopping s) (ho : s.owner.isStopping = false) {i : Fin n}
    (hi : s.tasks i ≠ []) : ∃ a ∈ (s.helper i).acts, step release s a ≠ none := by
  by_cases hasleep : s.Asleep i
  · rw [helper, if_pos hasleep]
    exact ⟨.owner, rfl, by simp [step, ownerStep, hs.owner_pushed hi hasleep]⟩
  · rw [helper, if_neg hasleep]
    refine ⟨.thread i, rfl, fun hnone => ?_⟩
    rcases threadStep_none hnone with h | h
    · exact hasleep h
    · exact Owner.not_asked ho i ((hst.stop i).mp (hst.exited i h))

/-- **A task in a queue is taken**, or the destructor begins. -/
theorem queued_leads_to_taken (hrelease : ∀ c, release c ≠ 0) (hfair : IsFair b) (h0 : b.state 0 = {}) (i : Fin n)
    (t : ℕ) :
    b.LeadsTo (fun s => t ∈ s.tasks i ∧ s.owner.isStopping = false)
      (fun s => (∃ j stolen, s.threads j = .taken t stolen) ∨ s.owner.isStopping = true) := by
  refine Behaviour.leads_to (fun s => (s.tasks i).idxOf t * (n + 5) + s.distance i) (fun c s => c = s.helper i)
    hfair (fun _ => ⟨_, rfl⟩) ?_ ?_
  · rintro k c ⟨ht, ho⟩ rfl
    exact (sound_state hrelease h0 k).helper_possible (stopping_state hrelease h0 k) ho (List.ne_nil_of_mem ht)
  rintro k a c hk ⟨ht, ho⟩ rfl
  have hstep := b.moves hk
  have hnext := next_of_step hstep
  by_cases ho' : (b.state (k + 1)).owner.isStopping = true
  · exact Or.inl (Or.inr ho')
  rcases idxOf_next hstep ht with htaken | ⟨ht', hidx, hfront⟩
  · exact Or.inl (Or.inl htaken)
  refine Or.inr ⟨⟨ht', Bool.eq_false_iff.mpr ho'⟩, ?_⟩
  -- a place nearer to the front outweighs all distances
  have hnearer : ((b.state (k + 1)).tasks i).idxOf t < ((b.state k).tasks i).idxOf t →
      ((b.state (k + 1)).tasks i).idxOf t * (n + 5) + (b.state (k + 1)).distance i <
        ((b.state k).tasks i).idxOf t * (n + 5) + (b.state k).distance i := by
    intro hlt
    calc ((b.state (k + 1)).tasks i).idxOf t * (n + 5) + (b.state (k + 1)).distance i
        < (((b.state (k + 1)).tasks i).idxOf t + 1) * (n + 5) := by
          rw [Nat.succ_mul]
          exact Nat.add_lt_add_left (distance_lt _ i) _
      _ ≤ ((b.state k).tasks i).idxOf t * (n + 5) := Nat.mul_le_mul_right _ hlt
      _ ≤ ((b.state k).tasks i).idxOf t * (n + 5) + (b.state k).distance i := Nat.le_add_right _ _
  by_cases ha : a = .thread i
  · left
    by_cases hp : (b.state k).threads i = .popping
    · exact hnearer (hfront ha hp)
    · subst ha
      have hstop : (b.state k).stop i = false :=
        Bool.eq_false_iff.mpr fun hs => Owner.not_asked ho i (((stopping_state hrelease h0 k).stop i).mp hs)
      have hpending := (sound_state hrelease h0 k).toConserved.pending_pos (List.ne_nil_of_mem ht)
      exact Nat.add_lt_add_of_le_of_lt (Nat.mul_le_mul_right _ hidx) (distance_thread hnext hpending hstop hp)
  · rcases distance_other hrelease hnext ha with ⟨hdistance, hasleep⟩ | hlt
    · rcases Nat.lt_or_eq_of_le hidx with hlt | heq
      · exact Or.inl (hnearer hlt)
      · have hhelper : (b.state (k + 1)).helper i = (b.state k).helper i := by
          simp only [helper, hasleep]
        refine Or.inr ⟨by simp only [heq, hdistance], hhelper.symm, ?_⟩
        by_cases hs : (b.state k).Asleep i
        · rw [helper, if_pos hs]
          rintro rfl
          exact (sound_state hrelease h0 k).owner_wakes hrelease (List.ne_nil_of_mem ht) hs hstep (hasleep.mpr hs)
        · rw [helper, if_neg hs]
          exact ha
    · exact Or.inl (Nat.add_lt_add_of_le_of_lt (Nat.mul_le_mul_right _ hidx) hlt)

/-! ### From the enqueueing to the end -/

/-- A thread stays in its place until its step. -/
theorem thread_ensures (hfair : IsFair b) {i : Fin n} {p : Place} {Q : ThreadPool n → Prop}
    (hpossible : ∀ {s : ThreadPool n}, s.threads i = p → s.threadStep i ≠ none)
    (hstep : ∀ {s s' : ThreadPool n}, s.threads i = p → s.threadStep i = some s' → Q s') :
    b.LeadsTo (fun s => s.threads i = p) Q := by
  refine Behaviour.ensures (hfair (.thread i)) (fun hp => ⟨.thread i, rfl, hpossible hp⟩) fun {k a} hk hp => ?_
  by_cases ha : a = .thread i
  · subst ha
    exact Or.inl (hstep hp (b.moves hk))
  · exact Or.inr ⟨(threads_next (next_of_step (b.moves hk)) ha).trans hp, ha⟩

/-- The owner stays where it is in a call until its step. -/
theorem owner_ensures (hfair : IsFair b) {o : Owner n} {Q : ThreadPool n → Prop} (ho : o ≠ .ready)
    (hpossible : ∀ {s : ThreadPool n}, s.owner = o → s.ownerStep release ≠ none)
    (hstep : ∀ {s s' : ThreadPool n}, s.owner = o → s.ownerStep release = some s' → Q s') :
    b.LeadsTo (fun s => s.owner = o) Q := by
  refine Behaviour.ensures (hfair .owner) (fun hp => ⟨.owner, rfl, hpossible hp⟩) fun {k a} hk hp => ?_
  by_cases ha : a = .owner
  · subst ha
    exact Or.inl (hstep hp (b.moves hk))
  · exact Or.inr ⟨(owner_next (next_of_step (b.moves hk)) ha (by rw [hp]; exact ho)).trans hp, ha⟩

/-- **A task in a thread's hands runs**, and returns. -/
theorem hands_leads_to_finished (hfair : IsFair b) (t : ℕ) :
    b.LeadsTo (fun s => ∃ i, t ∈ (s.threads i).tasks) (fun s => t ∈ s.finished) := by
  have hrunning : ∀ i stolen, b.LeadsTo (fun s => s.threads i = .running t stolen) (fun s => t ∈ s.finished) := by
    intro i stolen
    refine thread_ensures hfair (fun hp => by simp [threadStep, hp]) fun {s s'} hp h => ?_
    simp only [threadStep, hp] at h
    rw [← Option.some.inj h]
    exact List.mem_append_right _ (List.mem_singleton_self t)
  have htaken : ∀ i stolen, b.LeadsTo (fun s => s.threads i = .taken t stolen)
      (fun s => s.threads i = .running t stolen) := by
    intro i stolen
    refine thread_ensures hfair (fun hp => by simp [threadStep, hp]) fun {s s'} hp h => ?_
    simp only [threadStep, hp] at h
    rw [← Option.some.inj h]
    exact go_threads_self ..
  rintro k ⟨i, hk⟩
  cases hp : (b.state k).threads i with
  | taken u stolen =>
    rw [hp] at hk
    obtain rfl := Multiset.mem_singleton.mp hk
    exact ((htaken i stolen).trans (hrunning i stolen)) k hp
  | running u stolen =>
    rw [hp] at hk
    obtain rfl := Multiset.mem_singleton.mp hk
    exact hrunning i stolen k hp
  | _ =>
    rw [hp] at hk
    exact absurd hk (Multiset.notMem_zero t)

/-- **The owner puts a task that it has picked into a queue.** -/
theorem picked_leads_to_queued (hfair : IsFair b) (t : ℕ) :
    b.LeadsTo (fun s => t ∈ s.owner.tasks) (fun s => ∃ i, t ∈ s.tasks i ∧ s.owner.isStopping = false) := by
  have hcounted : ∀ i, b.LeadsTo (fun s => s.owner = .counted i t)
      (fun s => ∃ i, t ∈ s.tasks i ∧ s.owner.isStopping = false) := by
    intro i
    refine owner_ensures hfair (by simp) (fun ho => by simp [ownerStep, ho]) fun {s s'} ho h => ⟨i, ?_⟩
    simp only [ownerStep, ho] at h
    rw [← Option.some.inj h]
    refine ⟨?_, rfl⟩
    simp [ThreadSafeQueue.pushBack]
  have hpicked : ∀ i, b.LeadsTo (fun s => s.owner = .picked i t) (fun s => s.owner = .counted i t) := by
    intro i
    refine owner_ensures hfair (by simp) (fun ho => by simp [ownerStep, ho]) fun {s s'} ho h => ?_
    simp only [ownerStep, ho] at h
    rw [← Option.some.inj h]
  intro k hk
  cases ho : (b.state k).owner with
  | picked i u =>
    rw [ho] at hk
    obtain rfl := Multiset.mem_singleton.mp hk
    exact ((hpicked i).trans (hcounted i)) k ho
  | counted i u =>
    rw [ho] at hk
    obtain rfl := Multiset.mem_singleton.mp hk
    exact hcounted i k ho
  | _ =>
    rw [ho] at hk
    exact absurd hk (Multiset.notMem_zero t)

/-- Where an enqueued task is. -/
theorem Conserved.place (hs : Conserved s) {t : ℕ} (ht : t < s.enqueued) :
    t ∈ s.owner.tasks ∨ (∃ i, t ∈ s.tasks i) ∨ (∃ i, t ∈ (s.threads i).tasks) ∨ t ∈ s.finished := by
  have hmem : t ∈ s.held := by
    rw [hs.held]
    exact Multiset.mem_range.mpr ht
  rw [ThreadPool.held, Multiset.mem_add, Multiset.mem_add, Multiset.mem_add, total, total, Multiset.mem_sum,
    Multiset.mem_sum] at hmem
  rcases hmem with ((h | ⟨i, -, h⟩) | ⟨i, -, h⟩) | h
  · exact Or.inl h
  · exact Or.inr (Or.inl ⟨i, h⟩)
  · exact Or.inr (Or.inr (Or.inl ⟨i, h⟩))
  · exact Or.inr (Or.inr (Or.inr h))

/-- **An enqueued task finishes**, however many are enqueued behind it, or the
destructor begins. -/
theorem enqueued_leads_to_finished (hrelease : ∀ c, release c ≠ 0) (hfair : IsFair b) (h0 : b.state 0 = {}) (t : ℕ) :
    b.LeadsTo (fun s => t < s.enqueued) (fun s => t ∈ s.finished ∨ s.owner.isStopping = true) := by
  have hhands : b.LeadsTo (fun s => ∃ i, t ∈ (s.threads i).tasks)
      (fun s => t ∈ s.finished ∨ s.owner.isStopping = true) :=
    (hands_leads_to_finished hfair t).trans (Behaviour.leadsTo_of_imp fun _ => Or.inl)
  have hqueued : ∀ i, b.LeadsTo (fun s => t ∈ s.tasks i ∧ s.owner.isStopping = false)
      (fun s => t ∈ s.finished ∨ s.owner.isStopping = true) := by
    intro i
    refine (queued_leads_to_taken hrelease hfair h0 i t).trans (.or ?_ (Behaviour.leadsTo_of_imp fun _ => Or.inr))
    rintro m ⟨j, stolen, hj⟩
    exact hhands m ⟨j, by rw [hj]; exact Multiset.mem_singleton_self t⟩
  intro k ht
  by_cases ho : (b.state k).owner.isStopping = true
  · exact ⟨k, le_rfl, Or.inr ho⟩
  rcases (sound_state hrelease h0 k).toConserved.place ht with h | ⟨i, hi⟩ | h | h
  · obtain ⟨m, hkm, i, hi⟩ := picked_leads_to_queued hfair t k h
    obtain ⟨l, hml, hl⟩ := hqueued i m hi
    exact ⟨l, hkm.trans hml, hl⟩
  · exact hqueued i k ⟨hi, Bool.eq_false_iff.mpr ho⟩
  · exact hhands k h
  · exact ⟨k, le_rfl, Or.inl h⟩

end Fair

end ThreadPool

end NiceHttp
