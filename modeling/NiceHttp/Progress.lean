/-
# The pool comes to rest

A thread that finds the counter positive goes round again, and it may do so
many times while the owner is on the way to a queue or another thread has a
task that it has not yet taken off the counter. These spins are the only way
to go on for ever: every other step takes from a rank (`rank_next`), so in
every run the number of steps is bounded by the calls of the owner and the
spins (`steps_le`). And no state of the pool is a trap: from every state that
is reached the threads can go on such that every task finishes, or a destructor
that has begun returns (`can_finish`).

Key definitions: `ThreadPool.rank`, `ThreadPool.spins`.
Key theorems: `ThreadPool.rank_next`, `ThreadPool.steps_le`,
`ThreadPool.can_finish`.
-/
import NiceHttp.Shutdown

namespace NiceHttp

open Places Run

section Rank

variable (n : ℕ)

/-- How far a thread is from its semaphore. -/
def Place.rank : Place → ℕ
  | waiting => 0
  | exited => 0
  | testing => 1
  | rotating => 2
  | checking => 3
  | stealing j => 4 + (n - j)
  | popping => n + 4
  | running _ _ => n + 5
  | taken _ _ => n + 6

/-- How far the owner is from the end of its call, with what the call will add
to the queues and semaphores. -/
def Owner.rank {n : ℕ} : Owner n → ℕ
  | ready => 0
  | gone => 0
  | pushed _ => n + 6
  | counted _ _ => 2 * n + 11
  | picked _ _ => 2 * n + 12
  | stopping k => (n - k) * (n + 8) + 1
  | signalling k => (n - (k + 1)) * (n + 8) + (n + 8)
  | joining k => (n - (k + 1)) * (n + 8) + 2

/-- The owner makes a call. -/
def Act.isCall {n : ℕ} : Act n → Bool
  | enqueue => true
  | destroy => true
  | _ => false

/-- What a call of the owner adds. -/
def Act.price {n : ℕ} : Act n → ℕ
  | enqueue => 2 * n + 13
  | destroy => n * (n + 8) + 2
  | _ => 0

end Rank

namespace ThreadPool

variable {n : ℕ} {release : ℕ → ℕ} {s s' : ThreadPool n} {a : Act n}

/-- How many steps the pool can make without a spin. -/
def rank (s : ThreadPool n) : ℕ :=
  s.owner.rank + total (fun q => (n + 4) * List.length q) s.tasks + total (fun c => (n + 5) * c) s.signal +
    total (Place.rank n) s.threads

/-- The thread finds the counter positive and goes round again. -/
def spins (s : ThreadPool n) : Act n → Bool
  | .thread i => s.threads i = .checking ∧ 0 < s.pendingTasks
  | _ => false

/-- A step of a thread that changes its place only. -/
theorem rank_go {i : Fin n} {p : Place} :
    (s.go i p).rank + (s.threads i).rank n = s.rank + p.rank n := by
  have hupdate := total_update (Place.rank n) s.threads i p
  simp only [rank, go]
  omega

/-- A semaphore that is raised. -/
theorem total_signal_le (hrelease : ∀ c, release c ≤ c + 1) (i : Fin n) :
    total (fun c => (n + 5) * c) (Function.update s.signal i (release (s.signal i))) ≤
      total (fun c => (n + 5) * c) s.signal + (n + 5) := by
  have hupdate := total_update (fun c => (n + 5) * c) s.signal i (release (s.signal i))
  have hle : (n + 5) * release (s.signal i) ≤ (n + 5) * s.signal i + (n + 5) :=
    (Nat.mul_le_mul_left _ (hrelease _)).trans_eq (Nat.mul_succ _ _)
  omega

/-- **Every step takes from the rank**, but for the calls of the owner and the
spins. -/
theorem rank_next (hrelease : ∀ c, release c ≤ c + 1) (h : Next release s a s') :
    s'.rank + 1 ≤ s.rank + a.price + if s.spins a then n + 2 else 0 := by
  have hgo : ∀ {i : Fin n} {o p : Place}, s.threads i = o → (s.go i p).rank + o.rank n = s.rank + p.rank n := by
    rintro i o p rfl
    exact rank_go
  cases h with
  | pick ho =>
    simp only [rank, ho, Owner.rank, Act.price]
    omega
  | drop =>
    simp only [Act.price]
    omega
  | count ho =>
    simp only [rank, ho, Owner.rank]
    omega
  | @push i t ho =>
    have hput : total (fun q => (n + 4) * List.length q) (Function.update s.tasks i (s.tasks i ++ [t])) =
        total (fun q => (n + 4) * List.length q) s.tasks + (n + 4) :=
      total_put (by rw [List.length_append, List.length_singleton, mul_add, mul_one])
    simp only [rank, ho, Owner.rank, hput]
    omega
  | @raise i ho =>
    have hraise := total_signal_le (s := s) hrelease i
    simp only [rank, ho, Owner.rank]
    omega
  | destroy ho =>
    simp only [rank, ho, Owner.rank, Act.price, Nat.sub_zero]
    omega
  | @requestStop k ho hk =>
    obtain ⟨m, hm⟩ : ∃ m, n - k = m + 1 := ⟨n - (k + 1), by omega⟩
    have hm' : n - (k + 1) = m := by omega
    simp only [rank, ho, Owner.rank, hm, hm', add_mul]
    omega
  | @wake k ho =>
    have hraise := total_signal_le (s := s) hrelease k
    simp only [rank, ho, Owner.rank]
    omega
  | join ho =>
    simp only [rank, ho, Owner.rank]
    omega
  | @leave k ho hk =>
    simp only [rank, ho, Owner.rank]
    omega
  | @acquire i hp hsignal =>
    have hplace := hgo (p := .popping) hp
    have htake : total (fun c => (n + 5) * c) s.signal =
        total (fun c => (n + 5) * c) (Function.update s.signal i (s.signal i - 1)) + (n + 5) :=
      total_take (by rw [← Nat.mul_succ, Nat.succ_eq_add_one, Nat.sub_add_cancel (Nat.pos_of_ne_zero hsignal)])
    simp only [rank, go, Place.rank] at hplace ⊢
    omega
  | @pop i t q hp hq =>
    have hplace := hgo (p := .taken t false) hp
    have htake : total (fun q => (n + 4) * List.length q) s.tasks =
        total (fun q => (n + 4) * List.length q) (Function.update s.tasks i q) + (n + 4) :=
      total_take (by rw [hq, List.length_cons, Nat.mul_succ])
    simp only [rank, go, Place.rank] at hplace ⊢
    omega
  | @empty i hp =>
    have hplace := hgo (p := .stealing 1) hp
    have hn := Nat.zero_lt_of_lt i.isLt
    simp only [Place.rank] at hplace
    omega
  | @steal i j t q hp hj hq =>
    have hplace := hgo (p := .taken t true) hp
    have htake : total (fun q => (n + 4) * List.length q) s.tasks =
        total (fun q => (n + 4) * List.length q) (Function.update s.tasks (victim i j) q) + (n + 4) :=
      total_take (by rw [hq, List.length_append, List.length_singleton, mul_add, mul_one])
    simp only [rank, go, Place.rank] at hplace ⊢
    omega
  | @miss i j hp hj =>
    have hplace := hgo (p := .stealing (j + 1)) hp
    simp only [Place.rank] at hplace
    omega
  | giveUp hp hj =>
    have hplace := hgo (p := .checking) hp
    simp only [Place.rank] at hplace
    omega
  | @start i t stolen hp =>
    have hplace := hgo (p := .running t stolen) hp
    simp only [rank, go, Place.rank] at hplace ⊢
    omega
  | @finish i t stolen hp =>
    have hplace := hgo (p := if stolen then .checking else .popping) hp
    have hle : (if stolen then Place.checking else Place.popping).rank n ≤ n + 4 := by
      cases stolen
      · exact le_refl _
      · exact Nat.le_add_left 3 (n + 1)
    simp only [rank, go, Place.rank] at hplace hle ⊢
    omega
  | @again i hp hpos =>
    have hplace := hgo (p := .popping) hp
    have hspins : s.spins (.thread i) = true := decide_eq_true ⟨hp, hpos⟩
    simp only [Place.rank] at hplace
    rw [if_pos hspins]
    omega
  | rest hp =>
    have hplace := hgo (p := .rotating) hp
    simp only [Place.rank] at hplace
    omega
  | @rotate i hp =>
    have hplace := hgo (p := .testing) hp
    simp only [rank, go, Place.rank] at hplace ⊢
    omega
  | exit hp =>
    have hplace := hgo (p := .exited) hp
    simp only [Place.rank] at hplace
    omega
  | sleep hp =>
    have hplace := hgo (p := .waiting) hp
    simp only [Place.rank] at hplace
    omega

theorem rank_init : ({} : ThreadPool n).rank = 0 := by simp [rank, Owner.rank, total, Place.rank]

/-- **The steps of a run are bounded.** In every run the number of steps is at
most a fixed amount for each call of the owner and for each spin. -/
theorem steps_le (hrelease : ∀ c, release c ≤ c + 1) {acts : List (Act n)}
    (hrun : run (step release) {} acts = some s) :
    acts.length ≤ (acts.map Act.price).sum + (n + 2) * count (step release) spins {} acts := by
  have hle := length_le (p := spins) (fun h => rank_next hrelease (next_of_step h)) hrun
  rw [rank_init] at hle
  omega

theorem steps_le_stolen :
    (stolenTask (0 : Fin 2) 1).length ≤ ((stolenTask (0 : Fin 2) 1).map Act.price).sum +
      (2 + 2) * count (step Nat.succ) spins ({} : ThreadPool 2) (stolenTask 0 1) := by
  obtain ⟨s, hrun⟩ : ∃ s, run (step Nat.succ) ({} : ThreadPool 2) (stolenTask 0 1) = some s := ⟨_, rfl⟩
  exact steps_le (fun _ => le_rfl) hrun

/-! ### A way to the end -/

theorem go_go (s : ThreadPool n) (i : Fin n) (p p' : Place) : (s.go i p).go i p' = s.go i p' := by
  simp only [go, Function.update_idem]

theorem tasks_go (s : ThreadPool n) (i : Fin n) (p : Place) : (s.go i p).tasks = s.tasks := rfl

/-- The thread has taken a task out of a queue. -/
def Took (s : ThreadPool n) (i : Fin n) (s' : ThreadPool n) : Prop :=
  ∃ t stolen v q, (s.tasks v).length = q.length + 1 ∧
    s' = { s.go i (.taken t stolen) with tasks := Function.update s.tasks v q }

theorem Took.rank {i : Fin n} (h : s.Took i s') : s'.rank + (s.threads i).rank n + (n + 4) = s.rank + (n + 6) := by
  obtain ⟨t, stolen, v, q, hlen, rfl⟩ := h
  have hplace := rank_go (s := s) (i := i) (p := .taken t stolen)
  have htake : total (fun q => (n + 4) * List.length q) s.tasks =
      total (fun q => (n + 4) * List.length q) (Function.update s.tasks v q) + (n + 4) :=
    total_take (by rw [hlen, Nat.mul_succ])
  simp only [ThreadPool.rank, go, Place.rank] at hplace ⊢
  omega

/-- A thread that comes to a queue that is not empty takes a task. -/
theorem exists_steal_now (release : ℕ → ℕ) {i : Fin n} {j : ℕ} (hj : j < n) {r : ℕ × ThreadSafeQueue ℕ}
    (hq : (s.tasks (victim i j)).steal = some r) :
    ∃ acts s', (∀ a ∈ acts, a = .thread i) ∧ run (step release) (s.go i (.stealing j)) acts = some s' ∧ s.Took i s' := by
  obtain ⟨t, q⟩ := r
  have hsteal : step release (s.go i (.stealing j)) (.thread i) =
      some { s.go i (.taken t true) with tasks := Function.update s.tasks (victim i j) q } := by
    simp only [step, threadStep, go_threads_self, if_pos hj, go_go, tasks_go, hq]
  have hlen : (s.tasks (victim i j)).length = q.length + 1 := by
    rw [ThreadSafeQueue.steal_eq_some hq, List.length_append, List.length_singleton]
  exact ⟨[.thread i], _, fun a ha => List.mem_singleton.mp ha, run_single hsteal, t, true, _, q, hlen, rfl⟩

/-- A thread that tries the other queues comes to one that is not empty. -/
theorem exists_steal (release : ℕ → ℕ) (i : Fin n) {k : ℕ} (hk : k < n) (hv : s.tasks (victim i k) ≠ []) :
    ∀ (d j : ℕ), j + d = k → ∃ acts s', (∀ a ∈ acts, a = .thread i) ∧
      run (step release) (s.go i (.stealing j)) acts = some s' ∧ s.Took i s' := by
  intro d
  induction d with
  | zero =>
    rintro j rfl
    cases hq : (s.tasks (victim i j)).steal with
    | none => exact absurd (ThreadSafeQueue.steal_eq_none hq) hv
    | some r => exact exists_steal_now release hk hq
  | succ d ih =>
    intro j hj
    have hlt : j < n := by omega
    cases hq : (s.tasks (victim i j)).steal with
    | some r => exact exists_steal_now release hlt hq
    | none =>
      have hmiss : step release (s.go i (.stealing j)) (.thread i) = some (s.go i (.stealing (j + 1))) := by
        simp only [step, threadStep, go_threads_self, if_pos hlt, go_go, tasks_go, hq]
      obtain ⟨acts, s', hacts, hrun, htook⟩ := ih (j + 1) (by omega)
      refine ⟨.thread i :: acts, s', by simpa using hacts, ?_, htook⟩
      rw [run_cons, hmiss]
      exact hrun

/-- Every other queue is tried. -/
theorem exists_victim {i v : Fin n} (h : v ≠ i) : ∃ k, 1 ≤ k ∧ k < n ∧ victim i k = v := by
  have hn := Nat.zero_lt_of_lt i.isLt
  have hne : (v : ℕ) ≠ i := fun he => h (Fin.ext he)
  rcases Nat.lt_or_gt_of_ne hne with hlt | hlt
  · refine ⟨v + n - i, by omega, by omega, Fin.ext ?_⟩
    have hsum : i + (v + n - i) = (v : ℕ) + n := by omega
    show (i + (v + n - i)) % n = (v : ℕ)
    rw [hsum, Nat.add_mod_right, Nat.mod_eq_of_lt v.isLt]
  · refine ⟨v - i, by omega, by omega, Fin.ext ?_⟩
    have hsum : i + (v - i) = (v : ℕ) := by omega
    show (i + (v - i)) % n = (v : ℕ)
    rw [hsum, Nat.mod_eq_of_lt v.isLt]

/-- A thread that spins while there is a task in a queue can take one. -/
theorem exists_take (release : ℕ → ℕ) {i v : Fin n} (hi : s.threads i = .checking) (hpos : 0 < s.pendingTasks)
    (hv : s.tasks v ≠ []) :
    ∃ acts s', (∀ a ∈ acts, a = .thread i) ∧ run (step release) s acts = some s' ∧ s.Took i s' := by
  have hagain : step release s (.thread i) = some (s.go i .popping) := by
    simp only [step, threadStep, hi, if_pos (show s.pendingTasks > 0 from hpos)]
  cases hq : (s.tasks i).popFront with
  | some r =>
    obtain ⟨t, q⟩ := r
    have hpop : step release (s.go i .popping) (.thread i) =
        some { s.go i (.taken t false) with tasks := Function.update s.tasks i q } := by
      simp only [step, threadStep, go_threads_self, go_go, tasks_go, hq]
    have hlen : (s.tasks i).length = q.length + 1 := by
      rw [ThreadSafeQueue.popFront_eq_some.mp hq, List.length_cons]
    refine ⟨[.thread i, .thread i], _, by simp, ?_, t, false, i, q, hlen, rfl⟩
    rw [run_cons, hagain]
    exact run_single hpop
  | none =>
    have hempty : step release (s.go i .popping) (.thread i) = some (s.go i (.stealing 1)) := by
      simp only [step, threadStep, go_threads_self, go_go, tasks_go, hq]
    have hvi : v ≠ i := by
      rintro rfl
      exact hv (ThreadSafeQueue.popFront_eq_none.mp hq)
    obtain ⟨k, h1, hk, rfl⟩ := exists_victim hvi
    obtain ⟨acts, s', hacts, hrun, htook⟩ := exists_steal release i hk hv (k - 1) 1 (by omega)
    refine ⟨.thread i :: .thread i :: acts, s', by simpa using hacts, ?_, htook⟩
    rw [run_cons, hagain, Option.bind_some, run_cons, hempty]
    exact hrun

/-- Without a call the owner adds no task and does not start the end. -/
theorem run_quiet (release : ℕ → ℕ) : ∀ {acts : List (Act n)} {s s' : ThreadPool n},
    (∀ a ∈ acts, a.isCall = false) → run (step release) s acts = some s' →
    s'.enqueued = s.enqueued ∧ s'.owner.isStopping = s.owner.isStopping
  | [], _, _, _, hrun => by
    rw [Option.some.inj hrun]
    exact ⟨rfl, rfl⟩
  | a :: acts, s, s', hacts, hrun => by
    rw [run_cons] at hrun
    obtain ⟨t, ht, hrest⟩ := Option.bind_eq_some_iff.mp hrun
    have hnext := next_of_step ht
    obtain ⟨henqueue, hdestroy⟩ : a ≠ .enqueue ∧ a ≠ .destroy := by
      have ha := hacts a List.mem_cons_self
      constructor
      · rintro rfl
        cases ha
      · rintro rfl
        cases ha
    obtain ⟨henqueued, hstopping⟩ := run_quiet release (fun b hb => hacts b (List.mem_cons_of_mem _ hb)) hrest
    refine ⟨henqueued.trans (enqueued_next hnext henqueue), hstopping.trans ?_⟩
    rw [Bool.eq_iff_iff, isStopping_next hnext, or_iff_left hdestroy]

/-- **Where a step is possible, the rank can be lowered** without a call: by a
step that is no spin, or by one that is and the taking of a task. -/
theorem exists_lower (hrelease : ∀ c, release c ≤ c + 1) (hs : Sound s) (hno : ¬ s.Stuck release) :
    ∃ acts s', (∀ a ∈ acts, a.isCall = false) ∧ run (step release) s acts = some s' ∧ s'.rank < s.rank := by
  by_cases hstep : ∃ a t, a.isCall = false ∧ step release s a = some t ∧ s.spins a = false
  · obtain ⟨a, t, ha, ht, hspins⟩ := hstep
    refine ⟨[a], t, fun b hb => by rw [List.mem_singleton.mp hb, ha], run_single ht, ?_⟩
    have hrank := rank_next hrelease (next_of_step ht)
    have hprice : a.price = 0 := by
      cases a with
      | enqueue => cases ha
      | destroy => cases ha
      | owner => rfl
      | thread i => rfl
    rw [hspins, hprice] at hrank
    exact hrank
  · -- all that can go on are threads that spin
    have hspin : ∀ a t, a.isCall = false → step release s a = some t → s.spins a = true := fun a t ha ht => by
      by_contra hsp
      exact hstep ⟨a, t, ha, ht, Bool.eq_false_iff.mpr hsp⟩
    have howner : s.ownerStep release = none := by
      rw [Option.eq_none_iff_forall_ne_some]
      intro t ht
      exact Bool.false_ne_true (hspin .owner t rfl ht)
    have hplace : ∀ i, (∃ t, s.threadStep i = some t) → s.threads i = .checking ∧ 0 < s.pendingTasks := fun i ⟨t, ht⟩ =>
      of_decide_eq_true (hspin (.thread i) t rfl ht)
    obtain ⟨i, hi⟩ : ∃ i, s.threadStep i ≠ none := by
      by_contra hnone
      exact hno ⟨howner, fun i => not_not.mp fun hi => hnone ⟨i, hi⟩⟩
    obtain ⟨hchecking, hpos⟩ := hplace i (Option.ne_none_iff_exists'.mp hi)
    have hready : s.owner.announced = 0 := by
      rcases ownerStep_none howner with h | h | ⟨j, h, -⟩
      · rw [h]
        rfl
      · rw [h]
        rfl
      · rw [h]
        rfl
    have hhands : total Place.announced s.threads = 0 := by
      refine total_eq_zero_iff.mpr fun j => ?_
      by_cases hj : s.threadStep j = none
      · rcases threadStep_none hj with ⟨hp, -⟩ | hp
        · rw [hp]
          rfl
        · rw [hp]
          rfl
      · rw [(hplace j (Option.ne_none_iff_exists'.mp hj)).1]
        rfl
    -- the counter counts a task in a queue
    obtain ⟨v, hv⟩ : ∃ v, s.tasks v ≠ [] := by
      by_contra hempty
      have hqueues : total List.length s.tasks = 0 := total_eq_zero_iff.mpr fun j => by
        rw [not_not.mp fun hj => hempty ⟨j, hj⟩]
        rfl
      have hpending := hs.pending
      rw [announced, hready, hqueues, hhands] at hpending
      omega
    obtain ⟨acts, s', hacts, hrun, htook⟩ := exists_take release hchecking hpos hv
    refine ⟨acts, s', fun a ha => by rw [hacts a ha]; rfl, hrun, ?_⟩
    have hrank := htook.rank
    rw [hchecking] at hrank
    simp only [Place.rank] at hrank
    omega

/-- The threads and the owner come to rest, if they go on so. -/
theorem exists_stuck (hup : ∀ c, release c ≠ 0) (hrelease : ∀ c, release c ≤ c + 1) :
    ∀ (r : ℕ) {s : ThreadPool n}, s.rank = r → Sound s →
      ∃ acts s', (∀ a ∈ acts, a.isCall = false) ∧ run (step release) s acts = some s' ∧ s'.Stuck release := by
  intro r
  induction r using Nat.strong_induction_on with
  | _ r ih =>
    rintro s rfl hs
    by_cases hstuck : s.Stuck release
    · exact ⟨[], s, nofun, rfl, hstuck⟩
    · obtain ⟨acts, t, hacts, hrun, hlt⟩ := exists_lower hrelease hs hstuck
      have ht : Sound t := kept (fun hs h => hs.next hup (next_of_step h)) hs hrun
      obtain ⟨acts', s', hacts', hrun', hstuck'⟩ := ih _ hlt rfl ht
      refine ⟨acts ++ acts', s', fun a ha => ?_, ?_, hstuck'⟩
      · rcases List.mem_append.mp ha with ha | ha
        · exact hacts a ha
        · exact hacts' a ha
      · rw [run_append, hrun]
        exact hrun'

/-- **No state is a trap.** From every state that is reached, the threads and
the owner can go on, without a new call, such that a destructor that has begun
returns, and otherwise every task that was enqueued finishes and every thread
waits. -/
theorem can_finish (hup : ∀ c, release c ≠ 0) (hrelease : ∀ c, release c ≤ c + 1) {acts : List (Act n)}
    (hrun : run (step release) {} acts = some s) :
    ∃ acts' s', (∀ a ∈ acts', a.isCall = false) ∧ run (step release) s acts' = some s' ∧
      if s.owner.isStopping then s'.owner = .gone
      else s'.owner = .ready ∧ (∀ i, s'.threads i = .waiting ∧ s'.tasks i = []) ∧
        s'.finished.Perm (List.range s.enqueued) := by
  obtain ⟨acts', s', hacts', hrun', hstuck⟩ := exists_stuck hup hrelease _ rfl (sound_of_run hup hrun)
  have hall : run (step release) {} (acts ++ acts') = some s' := by
    rw [run_append, hrun]
    exact hrun'
  obtain ⟨henqueued, hstopping⟩ := run_quiet release hacts' hrun'
  have hs' : Sound s' := sound_of_run hup hall
  refine ⟨acts', s', hacts', hrun', ?_⟩
  rw [← hstopping]
  rcases hstuck.cases hs' (stopping_of_run hup hall) with hgone | ⟨hready, hwaiting⟩
  · rw [if_pos (by rw [hgone]; rfl)]
    exact hgone
  · rw [if_neg (by rw [hready]; exact Bool.false_ne_true), ← henqueued]
    refine ⟨hready, hwaiting, hs'.toConserved.finished (by rw [hready]; rfl) (fun i => (hwaiting i).2) fun i => ?_⟩
    rw [(hwaiting i).1]
    rfl

theorem can_finish_one :
    ∃ s s', run (step Nat.succ) ({} : ThreadPool 1) (oneTask.take 3) = some s ∧ s'.finished.Perm (List.range 1) ∧
      ∃ acts, run (step Nat.succ) s acts = some s' := by
  obtain ⟨s, hrun, ho, henqueued⟩ : ∃ s, run (step Nat.succ) ({} : ThreadPool 1) (oneTask.take 3) = some s ∧
      s.owner.isStopping = false ∧ s.enqueued = 1 := ⟨_, rfl, rfl, rfl⟩
  obtain ⟨acts, s', -, hrun', hend⟩ := can_finish Nat.succ_ne_zero (fun _ => le_rfl) hrun
  rw [if_neg (by rw [ho]; exact Bool.false_ne_true), henqueued] at hend
  obtain ⟨-, -, hfinished⟩ := hend
  exact ⟨s, s', hrun, hfinished, acts, hrun'⟩

end ThreadPool

end NiceHttp
