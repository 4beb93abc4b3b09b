/-
# The destructor returns

The destructor waits for one thread after the other. The thread that it waits
for goes round as long as the counter is positive, and the counter may be
positive because of tasks in other queues, or of tasks that other threads have
taken. No tasks come any more, so each task that is taken, begun or finished
lowers the work that is left (`ThreadPool.work`); and when no thread has a task
in its hands, the thread that the destructor waits for is at most two rounds
from a task or from its exit (`ThreadPool.approach`). So in every fair behaviour
a destructor that is called returns (`destructor_returns`), and every task
finishes, unless the destructor is called with a task in a queue and all threads
past the counter (`no_starvation`).

Key definitions: `ThreadPool.work`, `ThreadPool.approach`,
`ThreadPool.remaining`.
Key theorems: `ThreadPool.work_next`, `ThreadPool.approach_thread`,
`ThreadPool.joining_leads_to_exited`, `ThreadPool.destructor_returns`,
`ThreadPool.no_starvation`.
-/
import NiceHttp.Starvation
import NiceHttp.Progress

namespace NiceHttp

open Places Run

/-- The steps that the task in a thread's hands still takes. -/
def Place.work : Place → ℕ
  | taken _ _ => 2
  | running _ _ => 1
  | _ => 0

namespace ThreadPool

variable {n : ℕ} {release : ℕ → ℕ} {s s' : ThreadPool n} {a : Act n}

/-- The steps that the tasks still take. -/
def work (s : ThreadPool n) : ℕ := total (fun q => 3 * List.length q) s.tasks + total Place.work s.threads

/-! ### The work -/

/-- **A step while the destructor runs** lowers the work, or leaves the queues,
the counter and all hands as they are. -/
theorem work_next (ho : s.owner.isStopping = true) (h : Next release s a s') :
    s'.work < s.work ∨
      s'.work = s.work ∧ s'.tasks = s.tasks ∧ s'.pendingTasks = s.pendingTasks ∧
        ∀ j, (s'.threads j).work = (s.threads j).work := by
  have hno : ∀ {o : Owner n} {p : Prop}, s.owner = o → o.isStopping = false → p := by
    rintro o p rfl hne
    rw [hne] at ho
    cases ho
  -- a thread that goes from a place without a task to another
  have hgo : ∀ {i : Fin n} {p : Place}, p.work = (s.threads i).work →
      (s.go i p).work = s.work ∧ ∀ j, ((s.go i p).threads j).work = (s.threads j).work := by
    intro i p hp
    refine ⟨congrArg (_ + ·) (total_keep hp), fun j => ?_⟩
    by_cases hij : j = i
    · subst hij
      rw [go_threads_self, hp]
    · rw [go_threads_ne s hij]
  have hkeep : ∀ {i : Fin n} {o p : Place}, s.threads i = o → p.work = o.work →
      (s.go i p).work = s.work ∧ ∀ j, ((s.go i p).threads j).work = (s.threads j).work := by
    rintro i o p rfl hp
    exact hgo hp
  -- a task that goes from a queue into the hands of a thread
  have htake : ∀ {i v : Fin n} {t : ℕ} {q : ThreadSafeQueue ℕ} {stolen : Bool}, (s.threads i).work = 0 →
      (s.tasks v).length = q.length + 1 →
      work { s.go i (.taken t stolen) with tasks := Function.update s.tasks v q } < s.work := by
    intro i v t q stolen hp hq
    have hqueues : total (fun q => 3 * List.length q) s.tasks =
        total (fun q => 3 * List.length q) (Function.update s.tasks v q) + 3 :=
      total_take (by rw [hq, Nat.mul_succ])
    have hhands : total Place.work (s.go i (.taken t stolen)).threads = total Place.work s.threads + 2 :=
      total_put (by rw [hp]; rfl)
    show total (fun q => 3 * List.length q) (Function.update s.tasks v q) +
        total Place.work (s.go i (.taken t stolen)).threads <
      total (fun q => 3 * List.length q) s.tasks + total Place.work s.threads
    omega
  cases h with
  | pick ho => exact hno ho rfl
  | drop ho => exact hno ho rfl
  | count ho => exact hno ho rfl
  | push ho => exact hno ho rfl
  | raise ho => exact hno ho rfl
  | destroy ho => exact hno ho rfl
  | requestStop => exact Or.inr ⟨rfl, rfl, rfl, fun _ => rfl⟩
  | wake => exact Or.inr ⟨rfl, rfl, rfl, fun _ => rfl⟩
  | join => exact Or.inr ⟨rfl, rfl, rfl, fun _ => rfl⟩
  | leave => exact Or.inr ⟨rfl, rfl, rfl, fun _ => rfl⟩
  | acquire hp =>
    obtain ⟨hwork, hhands⟩ := hkeep (p := .popping) hp rfl
    exact Or.inr ⟨hwork, rfl, rfl, hhands⟩
  | pop hp hq => exact Or.inl (htake (by rw [hp]; rfl) (by rw [hq, List.length_cons]))
  | empty hp =>
    obtain ⟨hwork, hhands⟩ := hkeep (p := .stealing 1) hp rfl
    exact Or.inr ⟨hwork, rfl, rfl, hhands⟩
  | steal hp _ hq =>
    exact Or.inl (htake (by rw [hp]; rfl) (by rw [hq, List.length_append, List.length_singleton]))
  | @miss i j hp =>
    obtain ⟨hwork, hhands⟩ := hkeep (p := .stealing (j + 1)) hp rfl
    exact Or.inr ⟨hwork, rfl, rfl, hhands⟩
  | giveUp hp =>
    obtain ⟨hwork, hhands⟩ := hkeep (p := .checking) hp rfl
    exact Or.inr ⟨hwork, rfl, rfl, hhands⟩
  | @start i t stolen hp =>
    have hhands : total Place.work s.threads = total Place.work (s.go i (.running t stolen)).threads + 1 :=
      total_take (by rw [hp]; rfl)
    left
    simp only [work, hhands]
    simp only [go]
    omega
  | @finish i t stolen hp =>
    have hhands : total Place.work s.threads =
        total Place.work (s.go i (if stolen then .checking else .popping)).threads + 1 :=
      total_take (by rw [hp]; cases stolen <;> rfl)
    left
    simp only [work, hhands]
    simp only [go]
    omega
  | again hp =>
    obtain ⟨hwork, hhands⟩ := hkeep (p := .popping) hp rfl
    exact Or.inr ⟨hwork, rfl, rfl, hhands⟩
  | rest hp =>
    obtain ⟨hwork, hhands⟩ := hkeep (p := .rotating) hp rfl
    exact Or.inr ⟨hwork, rfl, rfl, hhands⟩
  | rotate hp =>
    obtain ⟨hwork, hhands⟩ := hkeep (p := .testing) hp rfl
    exact Or.inr ⟨hwork, rfl, rfl, hhands⟩
  | exit hp =>
    obtain ⟨hwork, hhands⟩ := hkeep (p := .exited) hp rfl
    exact Or.inr ⟨hwork, rfl, rfl, hhands⟩
  | sleep hp =>
    obtain ⟨hwork, hhands⟩ := hkeep (p := .waiting) hp rfl
    exact Or.inr ⟨hwork, rfl, rfl, hhands⟩

/-! ### The thread that the destructor waits for -/

/-- A queue that the thread still tries is not empty. -/
def Ahead (s : ThreadPool n) (i : Fin n) (j : ℕ) : Prop := ∃ k, j ≤ k ∧ k < n ∧ s.tasks (victim i k) ≠ []

open Classical in
/-- How many steps a thread makes at most from the place before it takes a task
or exits, if it is asked to stop and no thread has a task in its hands. -/
noncomputable def approachFrom (s : ThreadPool n) (i : Fin n) : Place → ℕ
  | .testing => 1
  | .rotating => 2
  | .checking => if 0 < s.pendingTasks then n + 9 else 3
  | .stealing j => n - j + if s.Ahead i j then 1 else if 0 < s.pendingTasks then n + 10 else 4
  | .popping => if 0 < s.pendingTasks then n + 8 else n + 5
  | .waiting => n + 9
  | _ => 0

/-- The steps from where the thread is. -/
noncomputable def approach (s : ThreadPool n) (i : Fin n) : ℕ := s.approachFrom i (s.threads i)

theorem approachFrom_congr (htasks : s'.tasks = s.tasks) (hpending : s'.pendingTasks = s.pendingTasks) (i : Fin n) :
    s'.approachFrom i = s.approachFrom i := by
  have hahead : s'.Ahead i = s.Ahead i := by
    funext j
    unfold Ahead
    rw [htasks]
  funext p
  unfold approachFrom
  rw [hahead, hpending]

/-- With all hands empty a positive counter counts a task in a queue. -/
theorem Conserved.exists_task (hs : Conserved s) (ho : s.owner.isStopping = true) (hhands : ∀ j, (s.threads j).work = 0)
    (hpending : 0 < s.pendingTasks) : ∃ v, s.tasks v ≠ [] := by
  by_contra hno
  have howner : s.owner.announced = 0 := by
    cases h : s.owner with
    | counted i t =>
      rw [h] at ho
      cases ho
    | _ => rfl
  have hqueues : total List.length s.tasks = 0 := total_eq_zero_iff.mpr fun v => by
    rw [not_not.mp fun hv => hno ⟨v, hv⟩]
    rfl
  have hannounced : total Place.announced s.threads = 0 := total_eq_zero_iff.mpr fun j => by
    have hj := hhands j
    cases hp : s.threads j with
    | taken t stolen =>
      rw [hp] at hj
      cases hj
    | _ => rfl
  have hs' := hs.pending
  rw [announced, howner, hqueues, hannounced] at hs'
  omega

/-- A thread that has found its own queue empty comes to one that is not. -/
theorem ahead_of_empty {i v : Fin n} (hi : s.tasks i = []) (hv : s.tasks v ≠ []) : s.Ahead i 1 := by
  have hvi : v ≠ i := by
    rintro rfl
    exact hv hi
  obtain ⟨k, h1, hk, rfl⟩ := exists_victim hvi
  exact ⟨k, h1, hk, hv⟩

theorem Ahead.miss {i : Fin n} {j : ℕ} (h : s.Ahead i j) (hj : s.tasks (victim i j) = []) : s.Ahead i (j + 1) := by
  obtain ⟨k, hjk, hk, hv⟩ := h
  refine ⟨k, lt_of_le_of_ne hjk ?_, hk, hv⟩
  rintro rfl
  exact hv hj

theorem not_ahead {i : Fin n} {j : ℕ} (hj : ¬ j < n) : ¬ s.Ahead i j := by
  rintro ⟨k, hjk, hk, -⟩
  exact hj (lt_of_le_of_lt hjk hk)

/-- **The thread that the destructor waits for** comes nearer to a task or to its
exit by each step, while no thread has a task in its hands. -/
theorem approach_thread {i : Fin n} (hs : Conserved s) (ho : s.owner.isStopping = true)
    (hhands : ∀ j, (s.threads j).work = 0) (hstop : s.stop i = true) (h : Next release s (.thread i) s') :
    s'.work < s.work ∨ s'.threads i = .exited ∨ s'.approach i < s.approach i := by
  rcases work_next ho h with hlt | ⟨-, htasks, hpending, -⟩
  · exact Or.inl hlt
  right
  -- the two places decide, since the queues and the counter are as before
  have hplace : ∀ {o p : Place}, s.threads i = o → s'.threads i = p → s.approachFrom i p < s.approachFrom i o →
      s'.approach i < s.approach i := by
    rintro o p rfl rfl hlt
    rw [approach, approachFrom_congr htasks hpending]
    exact hlt
  cases h with
  | acquire hp =>
    refine Or.inr (hplace hp (go_threads_self ..) ?_)
    simp only [approachFrom]
    split <;> omega
  | pop hp hq =>
    have hlen := congrArg List.length (congrFun htasks i)
    rw [hq] at hlen
    simp at hlen
  | empty hp hq =>
    refine Or.inr (hplace hp (go_threads_self ..) ?_)
    by_cases hpos : 0 < s.pendingTasks
    · obtain ⟨v, hv⟩ := hs.exists_task ho hhands hpos
      simp only [approachFrom, if_pos hpos, if_pos (ahead_of_empty hq hv)]
      omega
    · simp only [approachFrom, if_neg hpos]
      have hn := Nat.zero_lt_of_lt i.isLt
      split <;> omega
  | @steal _ j t q hp hj hq =>
    have hlen := congrArg List.length (congrFun htasks (victim i j))
    rw [hq] at hlen
    simp at hlen
  | @miss _ j hp hj hq =>
    refine Or.inr (hplace hp (go_threads_self ..) ?_)
    by_cases hahead : s.Ahead i j
    · simp only [approachFrom, if_pos hahead, if_pos (hahead.miss hq)]
      omega
    · simp only [approachFrom, if_neg hahead]
      split <;> split <;> omega
  | @giveUp _ j hp hj =>
    refine Or.inr (hplace hp (go_threads_self ..) ?_)
    simp only [approachFrom, if_neg (not_ahead hj)]
    split <;> omega
  | start hp =>
    have hi := hhands i
    rw [hp] at hi
    cases hi
  | finish hp =>
    have hi := hhands i
    rw [hp] at hi
    cases hi
  | again hp hpos =>
    refine Or.inr (hplace hp (go_threads_self ..) ?_)
    simp only [approachFrom, if_pos hpos]
    omega
  | rest hp hle =>
    refine Or.inr (hplace hp (go_threads_self ..) ?_)
    simp only [approachFrom, if_neg (not_lt.mpr hle)]
    omega
  | rotate hp => exact Or.inr (hplace hp (go_threads_self ..) (Nat.lt_succ_self 1))
  | exit hp => exact Or.inl (go_threads_self ..)
  | sleep hp hno =>
    rw [hstop] at hno
    cases hno

/-! ### Fair behaviours -/

open Classical in
/-- The work, and the steps of the thread once all hands are empty. -/
noncomputable def remaining (s : ThreadPool n) (i : Fin n) : ℕ ×ₗ ℕ :=
  toLex (s.work, if ∀ j, (s.threads j).work = 0 then s.approach i else 0)

theorem remaining_lt_of_work {i : Fin n} (h : s'.work < s.work) : s'.remaining i < s.remaining i :=
  Prod.Lex.toLex_lt_toLex.mpr (Or.inl h)

/-- Who brings the exit of the thread nearer: a thread with a task in its hands,
or, if there is none, the thread itself. -/
def ExitHelp (i : Fin n) (c : Party n) (s : ThreadPool n) : Prop :=
  ∃ j, c = .thread j ∧ ((s.threads j).work ≠ 0 ∨ (∀ k, (s.threads k).work = 0) ∧ j = i)

/-- A thread with a task in its hands works. -/
theorem work_thread {i : Fin n} (ho : s.owner.isStopping = true) (hi : (s.threads i).work ≠ 0)
    (h : Next release s (.thread i) s') : s'.work < s.work := by
  rcases work_next ho h with hlt | ⟨-, -, -, hhands⟩
  · exact hlt
  exfalso
  have hplace : ∀ {p : Place}, (s.threads i).work = p.work + 1 → s'.threads i = p → False := by
    rintro p hp rfl
    rw [hhands i] at hp
    omega
  have hidle : ∀ {p : Place}, s.threads i = p → p.work = 0 → False := by
    rintro p rfl hp
    exact hi hp
  cases h with
  | acquire hp => exact hidle hp rfl
  | pop hp => exact hidle hp rfl
  | empty hp => exact hidle hp rfl
  | steal hp => exact hidle hp rfl
  | miss hp => exact hidle hp rfl
  | giveUp hp => exact hidle hp rfl
  | start hp => exact hplace (by rw [hp]; rfl) (go_threads_self ..)
  | @finish _ t stolen hp => exact hplace (by rw [hp]; cases stolen <;> rfl) (go_threads_self ..)
  | again hp => exact hidle hp rfl
  | rest hp => exact hidle hp rfl
  | rotate hp => exact hidle hp rfl
  | exit hp => exact hidle hp rfl
  | sleep hp => exact hidle hp rfl

/-- An exited thread makes no step. -/
theorem exited_step {i : Fin n} (h : step release s a = some s') (hi : s.threads i = .exited) :
    s'.threads i = .exited := by
  by_cases ha : a = .thread i
  · subst ha
    simp only [step, threadStep, hi] at h
    cases h
  · exact (threads_next (next_of_step h) ha).trans hi

section Fair

variable {b : Behaviour (step (n := n) release)}

/-- The owner waits for the thread until it has exited. -/
theorem owner_joining {i : Fin n} (h : Next release s a s') (ho : s.owner = .joining i) (hi : s.threads i ≠ .exited) :
    s'.owner = .joining i := by
  by_cases ha : a = .owner
  · subst ha
    cases h with
    | join ho' hexited =>
      rw [ho] at ho'
      cases ho'
      exact absurd hexited hi
    | count ho' => exact absurd (ho.symm.trans ho') nofun
    | push ho' => exact absurd (ho.symm.trans ho') nofun
    | raise ho' => exact absurd (ho.symm.trans ho') nofun
    | requestStop ho' => exact absurd (ho.symm.trans ho') nofun
    | wake ho' => exact absurd (ho.symm.trans ho') nofun
    | leave ho' => exact absurd (ho.symm.trans ho') nofun
  · exact (owner_next h ha (by rw [ho]; nofun)).trans ho

/-- **The thread that the destructor waits for exits.** -/
theorem joining_leads_to_exited (hrelease : ∀ c, release c ≠ 0) (hfair : IsFair b) (h0 : b.state 0 = {}) (i : Fin n) :
    b.LeadsTo (fun s => s.owner = .joining i ∧ s.threads i ≠ .exited)
      (fun s => s.owner = .joining i ∧ s.threads i = .exited) := by
  apply Behaviour.leads_to (fun s => s.remaining i) (ExitHelp i) hfair
  · intro k _
    by_cases hhands : ∀ j, ((b.state k).threads j).work = 0
    · exact ⟨.thread i, i, rfl, Or.inr ⟨hhands, rfl⟩⟩
    · obtain ⟨j, hj⟩ := not_forall.mp hhands
      exact ⟨.thread j, j, rfl, Or.inl hj⟩
  · rintro k c ⟨ho, hexited⟩ ⟨j, rfl, hj⟩
    refine ⟨.thread j, rfl, fun hnone => ?_⟩
    rcases threadStep_none hnone with ⟨hp, hsignal⟩ | hp
    · -- the semaphore of the thread that is waited for has been raised
      rcases hj with hj | ⟨-, rfl⟩
      · rw [hp] at hj
        exact hj rfl
      · exact (stopping_state hrelease h0 k).woken j ho hp hsignal
    · rcases hj with hj | ⟨-, rfl⟩
      · rw [hp] at hj
        exact hj rfl
      · exact hexited hp
  rintro k a c hk ⟨ho, hexited⟩ ⟨j, rfl, hj⟩
  have hnext := next_of_step (b.moves hk)
  have hstopping : (b.state k).owner.isStopping = true := by rw [ho]; rfl
  have ho' := owner_joining hnext ho hexited
  by_cases hexited' : (b.state (k + 1)).threads i = .exited
  · exact Or.inl ⟨ho', hexited'⟩
  refine Or.inr ⟨⟨ho', hexited'⟩, ?_⟩
  rcases work_next hstopping hnext with hlt | ⟨hwork, htasks, hpending, hhands⟩
  · exact Or.inl (remaining_lt_of_work hlt)
  by_cases hempty : ∀ j, ((b.state k).threads j).work = 0
  · obtain rfl : j = i := hj.elim (fun h => absurd (hempty j) h) fun h => h.2
    have hempty' : ∀ j, ((b.state (k + 1)).threads j).work = 0 := fun j => (hhands j).trans (hempty j)
    by_cases ha : a = .thread j
    · subst ha
      have hasked : (b.state k).stop j = true := by
        refine ((stopping_state hrelease h0 k).stop j).mpr ?_
        rw [ho]
        exact le_refl (j : ℕ)
      have hconserved := (sound_state hrelease h0 k).toConserved
      rcases approach_thread hconserved hstopping hempty hasked hnext with hlt | hp | hlt
      · exact Or.inl (remaining_lt_of_work hlt)
      · exact absurd hp hexited'
      · left
        simp only [remaining, if_pos hempty, if_pos hempty']
        exact Prod.Lex.toLex_lt_toLex.mpr (Or.inr ⟨hwork, hlt⟩)
    · right
      refine ⟨?_, ⟨j, rfl, Or.inr ⟨hempty', rfl⟩⟩, fun h => ha h⟩
      simp only [remaining, if_pos hempty, if_pos hempty', hwork]
      rw [approach, approach, approachFrom_congr htasks hpending, threads_next hnext ha]
  · have hempty' : ¬ ∀ j, ((b.state (k + 1)).threads j).work = 0 := fun h => hempty fun j => (hhands j).symm.trans (h j)
    have hj' : ((b.state k).threads j).work ≠ 0 := hj.resolve_right fun h => hempty h.1
    by_cases ha : a = .thread j
    · subst ha
      exact Or.inl (remaining_lt_of_work (work_thread hstopping hj' hnext))
    · right
      refine ⟨?_, ⟨j, rfl, Or.inl (by rw [hhands j]; exact hj')⟩, fun h => ha h⟩
      simp only [remaining, if_neg hempty, if_neg hempty', hwork]

/-- **A destructor that has begun returns.** -/
theorem stopping_leads_to_gone (hrelease : ∀ c, release c ≠ 0) (hfair : IsFair b) (h0 : b.state 0 = {}) :
    b.LeadsTo (fun s => s.owner.isStopping = true) (fun s => s.owner = .gone) := by
  have hjoined : ∀ i : Fin n, b.LeadsTo (fun s => s.owner = .joining i) (fun s => s.owner = .stopping (i + 1)) := by
    intro i
    have hexited : b.LeadsTo (fun s => s.owner = .joining i ∧ s.threads i = .exited)
        (fun s => s.owner = .stopping (i + 1)) := by
      refine Behaviour.ensures (hfair .owner) ?_ fun {k a} hk hat => ?_
      · rintro k ⟨ho, hp⟩
        exact ⟨.owner, rfl, by simp [step, ownerStep, ho, hp]⟩
      · obtain ⟨ho, hp⟩ := hat
        by_cases ha : a = .owner
        · subst ha
          have hstep := b.moves hk
          simp only [step, ownerStep, ho, hp, if_true] at hstep
          rw [← Option.some.inj hstep]
          exact Or.inl rfl
        · have ho' := (owner_next (next_of_step (b.moves hk)) ha (by simp [ho])).trans ho
          exact Or.inr ⟨⟨ho', exited_step (b.moves hk) hp⟩, ha⟩
    intro k ho
    by_cases hp : (b.state k).threads i = .exited
    · exact hexited k ⟨ho, hp⟩
    · exact ((joining_leads_to_exited hrelease hfair h0 i).trans hexited) k ⟨ho, hp⟩
  have hsignalling : ∀ i : Fin n, b.LeadsTo (fun s => s.owner = .signalling i) (fun s => s.owner = .joining i) := by
    intro i
    refine owner_ensures hfair (by simp) (fun ho => by simp [ownerStep, ho]) fun ho h => ?_
    simp only [ownerStep, ho] at h
    rw [← Option.some.inj h]
  have hrequest : ∀ i : Fin n, b.LeadsTo (fun s => s.owner = .stopping i) (fun s => s.owner = .signalling i) := by
    intro i
    refine owner_ensures hfair (by simp) (fun ho => ?_) fun ho h => ?_
    · simp [ownerStep, ho]
    · simp only [ownerStep, ho, i.isLt, dite_true] at h
      rw [← Option.some.inj h]
  have hleave : ∀ i, ¬ i < n → b.LeadsTo (fun s => s.owner = .stopping i) (fun s => s.owner = .gone) := by
    intro i hi
    refine owner_ensures hfair (by simp) (fun ho => ?_) fun ho h => ?_
    · simp [ownerStep, ho, hi]
    · simp only [ownerStep, ho, hi, dite_false] at h
      rw [← Option.some.inj h]
  -- by induction on the number of threads that are left
  have hstopping : ∀ d i, i + d = n → b.LeadsTo (fun s => s.owner = .stopping i) (fun s => s.owner = .gone) := by
    intro d
    induction d with
    | zero =>
      rintro i rfl
      exact hleave i (Nat.lt_irrefl i)
    | succ d ih =>
      intro i hi
      have hlt : i < n := by omega
      exact (hrequest ⟨i, hlt⟩).trans ((hsignalling _).trans ((hjoined _).trans (ih (i + 1) (by omega))))
  intro k hk
  cases ho : (b.state k).owner with
  | stopping i =>
    by_cases hi : i < n
    · exact hstopping (n - i) i (by omega) k ho
    · exact hleave i hi k ho
  | signalling i => exact ((hsignalling i).trans ((hjoined i).trans (hstopping (n - (i + 1)) (i + 1) (by omega)))) k ho
  | joining i => exact ((hjoined i).trans (hstopping (n - (i + 1)) (i + 1) (by omega))) k ho
  | gone => exact ⟨k, le_rfl, ho⟩
  | _ =>
    rw [ho] at hk
    cases hk

/-- A step enqueues no task, or one. -/
theorem enqueued_le (h : Next release s a s') : s.enqueued ≤ s'.enqueued := by
  cases h with
  | pick => exact Nat.le_succ _
  | _ => exact le_rfl

/-- The destructor that is called at the one time has returned at the other. -/
theorem destroyed_of_act {k m : ℕ} (hk : b.act k = some .destroy) (hkm : k < m) (hm : (b.state m).owner = .gone) :
    Destroyed release (b.state k) (b.state m) := by
  obtain ⟨acts, hacts⟩ := b.exists_run (Nat.succ_le_of_lt hkm)
  exact ⟨acts, by rw [run_cons, b.moves hk]; exact hacts, hm⟩

theorem isStopping_of_act {k : ℕ} (hk : b.act k = some .destroy) : (b.state (k + 1)).owner.isStopping = true :=
  (isStopping_next (next_of_step (b.moves hk))).mpr (Or.inr rfl)

/-- The destructor runs because it was called. -/
theorem exists_destroy (h0 : b.state 0 = {}) {m : ℕ} (hm : (b.state m).owner.isStopping = true) :
    ∃ k, b.act k = some .destroy := by
  have hstart : ¬ (b.state 0).owner.isStopping = true := by
    rw [h0]
    exact Bool.false_ne_true
  obtain ⟨k, a, -, ha, hno, hyes⟩ := b.exists_step (I := fun s => s.owner.isStopping = true) hstart hm
  obtain rfl : a = .destroy := ((isStopping_next (next_of_step (b.moves ha))).mp hyes).resolve_left hno
  exact ⟨k, ha⟩

/-- A destructor that a thread will look at the counter for leaves no task
behind, whenever the task was enqueued. -/
theorem finishes_of_destroy (hrelease : ∀ c, release c ≠ 0) (hfair : IsFair b) (h0 : b.state 0 = {}) {j k t : ℕ}
    (hj : b.act j = some .destroy)
    (hleft : (∀ i, (b.state j).tasks i = []) ∨ ∃ i, ((b.state j).threads i).isPast = false)
    (ht : t < (b.state k).enqueued) : ∃ m, k ≤ m ∧ t ∈ (b.state m).finished := by
  have hlater : (b.state (max k (j + 1))).owner.isStopping = true :=
    b.kept (I := fun s => s.owner.isStopping = true)
      (fun _ hm h => (isStopping_next (next_of_step (b.moves hm))).mpr (Or.inl h)) (isStopping_of_act hj)
      (le_max_right _ _)
  obtain ⟨m, hm, hgone⟩ := stopping_leads_to_gone hrelease hfair h0 _ hlater
  have hkm : k ≤ m := (le_max_left _ _).trans hm
  have hdestroyed := destroyed_of_act hj ((le_max_right _ _).trans hm) hgone
  have hs := (sound_state hrelease h0 j).toConserved
  have hst := stopping_state hrelease h0 j
  have henqueued : t < (b.state m).enqueued :=
    b.kept (I := fun s => t < s.enqueued) (fun _ hm h => lt_of_lt_of_le h (enqueued_le (next_of_step (b.moves hm)))) ht hkm
  rw [(hdestroyed.ending hrelease hs hst).1.enqueued] at henqueued
  exact ⟨m, hkm, (hdestroyed.finished hrelease hs hst hleft).mem_iff.mpr (List.mem_range.mpr henqueued)⟩

/-- A destructor that runs has left the task behind only if it was called with
a task in a queue and all threads past the counter. -/
theorem finishes_of_stopping (hrelease : ∀ c, release c ≠ 0) (hfair : IsFair b) (h0 : b.state 0 = {})
    {m k t : ℕ} (hm : (b.state m).owner.isStopping = true) (ht : t < (b.state k).enqueued) :
    (∃ l, k ≤ l ∧ t ∈ (b.state l).finished) ∨
      ∃ l, b.act l = some .destroy ∧ (∃ i, (b.state l).tasks i ≠ []) ∧
        ∀ i, ((b.state l).threads i).isPast = true := by
  obtain ⟨j, hj⟩ := exists_destroy h0 hm
  by_cases hleft : (∀ i, (b.state j).tasks i = []) ∨ ∃ i, ((b.state j).threads i).isPast = false
  · exact Or.inl (finishes_of_destroy hrelease hfair h0 hj hleft ht)
  · obtain ⟨hqueue, hpast⟩ := not_or.mp hleft
    simp only [not_exists, Bool.not_eq_false] at hpast
    exact Or.inr ⟨j, hj, not_forall.mp hqueue, hpast⟩

/-- **The destructor returns.** In every fair behaviour a destructor that is
called returns, whatever the threads have to do, with every thread exited. -/
theorem destructor_returns (hrelease : ∀ c, release c ≠ 0) (hfair : IsFair b) (h0 : b.state 0 = {}) {k : ℕ}
    (hk : b.act k = some .destroy) :
    ∃ m, k < m ∧ (b.state m).owner = .gone ∧ ∀ i, (b.state m).threads i = .exited := by
  obtain ⟨m, hkm, hm⟩ := stopping_leads_to_gone hrelease hfair h0 (k + 1) (isStopping_of_act hk)
  have hs := (sound_state hrelease h0 k).toConserved
  have hst := stopping_state hrelease h0 k
  exact ⟨m, hkm, hm, ((destroyed_of_act hk hkm hm).ending hrelease hs hst).2⟩

/-- **No task starves.** In every fair behaviour of the pool every task that is
enqueued finishes, however many are enqueued behind it, unless the destructor
is called with a task in a queue and all threads past the counter. -/
theorem no_starvation (hrelease : ∀ c, release c ≠ 0) (hfair : IsFair b) (h0 : b.state 0 = {}) {k t : ℕ}
    (ht : t < (b.state k).enqueued) :
    (∃ m, k ≤ m ∧ t ∈ (b.state m).finished) ∨
      ∃ m, b.act m = some .destroy ∧ (∃ i, (b.state m).tasks i ≠ []) ∧
        ∀ i, ((b.state m).threads i).isPast = true := by
  obtain ⟨m, hkm, hm⟩ := enqueued_leads_to_finished hrelease hfair h0 t k ht
  rcases hm with hm | hm
  · exact Or.inl ⟨m, hkm, hm⟩
  · exact finishes_of_stopping hrelease hfair h0 hm ht

/-- One task, and then the destructor. -/
def oneDestroyed (i : Fin n) : List (Act n) :=
  List.flatten [[.enqueue, .owner, .owner, .owner], List.replicate 9 (.thread i), [.destroy, .owner, .owner],
    List.replicate 6 (.thread i), [.owner, .owner]]

theorem oneDestroyed_fair {s : ThreadPool 1} (hrun : run (step Nat.succ) ({} : ThreadPool 1) (oneDestroyed 0) = some s) :
    IsFair (Behaviour.padded hrun) := by
  have hend : s.owner = .gone ∧ s.threads 0 = .exited := by
    obtain rfl := Option.some.inj hrun
    exact ⟨rfl, rfl⟩
  intro c
  refine Behaviour.fair_padded hrun fun a ha => ?_
  cases c with
  | owner =>
    obtain rfl := Set.mem_singleton_iff.mp ha
    simp only [step, ownerStep, hend.1]
  | thread i =>
    obtain rfl := Set.mem_singleton_iff.mp ha
    rw [Fin.fin_one_eq_zero i]
    simp only [step, threadStep, hend.2]

theorem destructor_returns_one :
    ∃ b : Behaviour (step (n := 1) Nat.succ), IsFair b ∧ b.state 0 = {} ∧ b.act 13 = some .destroy ∧
      ∃ m, 13 < m ∧ (b.state m).owner = .gone ∧ ∀ i, (b.state m).threads i = .exited := by
  obtain ⟨s, hrun⟩ : ∃ s, run (step Nat.succ) ({} : ThreadPool 1) (oneDestroyed 0) = some s := ⟨_, rfl⟩
  have hfair := oneDestroyed_fair hrun
  exact ⟨_, hfair, rfl, rfl, destructor_returns Nat.succ_ne_zero hfair rfl rfl⟩

theorem no_starvation_one :
    ∃ b : Behaviour (step (n := 1) Nat.succ), IsFair b ∧ b.state 0 = {} ∧ (b.state 1).enqueued = 1 ∧
      ((∃ m, 1 ≤ m ∧ 0 ∈ (b.state m).finished) ∨
        ∃ m, b.act m = some .destroy ∧ (∃ i, (b.state m).tasks i ≠ []) ∧
          ∀ i, ((b.state m).threads i).isPast = true) := by
  obtain ⟨s, hrun⟩ : ∃ s, run (step Nat.succ) ({} : ThreadPool 1) (oneDestroyed 0) = some s := ⟨_, rfl⟩
  have hfair := oneDestroyed_fair hrun
  have henqueued : ((Behaviour.padded hrun).state 1).enqueued = 1 := rfl
  refine ⟨_, hfair, rfl, henqueued, no_starvation Nat.succ_ne_zero hfair rfl (k := 1) ?_⟩
  rw [henqueued]
  exact one_pos

end Fair

end ThreadPool

end NiceHttp
