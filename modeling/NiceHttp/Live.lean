/-
# Every task is served

Behaviours of the whole server that go on for ever, with connections again and
again. A behaviour is fair if the owner of the pool, in a call of it, and every
thread, in its own loop or in its task, have their turn again and again. A
client that sends without end keeps its thread in `recv_http`, and `n` of them
keep all of them; so it is assumed that no task receives without end
(`Pooled.Receives`).

Then each task that is begun goes to its end (`busy_leads_to_returned`), so
the pool has a fair behaviour of its own (`pool_isFair`), and what holds there
holds here: on every task that is enqueued a whole call of `parsereq` is made,
however many connections come, unless the loop is left with a task in a queue
and all threads past the counter (`every_task_served`); and when the loop is
left `start` returns (`start_returns`).

Key definitions: `Pooled.acts`, `Pooled.IsFair`, `Pooled.Receives`,
`Pooled.poolBehaviour`.
Key theorems: `Pooled.busy_leads_to_returned`, `Pooled.pool_isFair`,
`Pooled.every_task_served`, `Pooled.start_returns`.
-/
import NiceHttp.Joining
import NiceHttp.Start

namespace NiceHttp

open Run

/-- The task has received, or sent its answer. -/
def Phase.left : Phase → ℕ
  | receiving _ => 2
  | sending _ => 1
  | closing => 0
  | ended _ => 0

namespace Server

variable {regex : Regex} {router : Router} {s s' : Server} {l : Step}

/-- A task that has returned makes no system call any more. -/
theorem returned_next (h : Next regex router s l s') {k : ℕ} (hk : s.returned k = true) : s'.returned k = true := by
  cases hl : l.task with
  | none =>
    obtain ⟨-, ⟨-, htasks⟩ | ⟨-, fd, htasks⟩⟩ := next_loop h hl
    · rw [returned, htasks]
      exact hk
    · obtain ⟨t, ht, hended⟩ := returned_iff.mp hk
      refine returned_iff.mpr ⟨t, ?_, hended⟩
      rw [htasks, List.getElem?_append_left (List.getElem?_eq_some_iff.mp ht).1, ht]
  | some j =>
    obtain ⟨hj, -, -, hothers⟩ := next_call h hl
    have hkj : k ≠ j := by
      rintro rfl
      rw [hk] at hj
      cases hj
    rw [returned, (hothers k hkj).1]
    exact hk

/-- A step that is not one of the task leaves it where it is. -/
theorem phase_next (h : Next regex router s l s') {k : ℕ} (hl : l.task ≠ some k) (hk : k < s.tasks.length) :
    s'.tasks[k]? = s.tasks[k]? := by
  cases hl' : l.task with
  | none =>
    obtain ⟨-, ⟨-, htasks⟩ | ⟨-, fd, htasks⟩⟩ := next_loop h hl'
    · rw [htasks]
    · rw [htasks, List.getElem?_append_left hk]
  | some j =>
    obtain ⟨-, -, -, hothers⟩ := next_call h hl'
    refine (hothers k ?_).1
    rintro rfl
    exact hl hl'

/-- How many calls the task makes at most after its last `recv`. -/
def left (s : Server) (k : ℕ) : ℕ := (s.tasks[k]?.map fun t => t.phase.left).getD 0

/-- A call other than `recv` brings the task nearer to its end. -/
theorem left_next (h : Next regex router s l s') {k : ℕ} (hl : l.task = some k) (hrecv : ∀ r, l ≠ .recv k r) :
    s'.returned k = true ∨ s'.left k < s.left k := by
  cases h with
  | @recv j r =>
    obtain rfl := Option.some.inj hl
    exact absurd rfl (hrecv r)
  | @send j fd raw hj =>
    obtain rfl := Option.some.inj hl
    right
    have hlt := (List.getElem?_eq_some_iff.mp hj).1
    have hsending : s.left j = 1 := by rw [left, hj]; rfl
    have hclosing : (s.act j ⟨fd, .sending raw⟩ .closing (.send raw)).left j = 0 := by
      simp only [left, act, List.getElem?_set_self hlt]
      rfl
    omega
  | @close j fd hj =>
    obtain rfl := Option.some.inj hl
    left
    have hlt := (List.getElem?_eq_some_iff.mp hj).1
    simp only [returned, act, List.getElem?_set_self hlt]
    rfl
  | _ => cases hl

end Server

namespace Pooled

variable {n : ℕ} {regex : Regex} {router : Router} {release : ℕ → ℕ} {s s' : Pooled n} {a : Act n}

/-- The steps with which the party goes on: a thread makes its own, and the
calls of the task that it runs. -/
def acts : Party n → Set (Act n)
  | .owner => {.owner}
  | .thread i => {a | a = .thread i ∨ ∃ l, a = .call i l}

section Fair

variable {b : Behaviour (step (n := n) regex router release)}

/-- Every party has its turn again and again. -/
def IsFair (b : Behaviour (step (n := n) regex router release)) : Prop := ∀ c : Party n, b.Fair (acts c)

/-- The task receives no more from some time on. -/
def Receives (b : Behaviour (step (n := n) regex router release)) (k : ℕ) : Prop :=
  ∃ m, ∀ j, m ≤ j → ∀ i r, b.act j ≠ some (.call i (.recv k r))

theorem sound_state (h0 : b.state 0 = {}) (k : ℕ) : Sound regex router (b.state k) :=
  sound_of_run (h0 ▸ b.run_state k)

/-! ### A task that is begun -/

variable {i : Fin n} {k : ℕ}

/-- The task has not returned, and the thread runs it. -/
def Busy (s : Pooled n) (i : Fin n) (k : ℕ) : Prop :=
  (∃ stolen, s.pool.threads i = .running k stolen) ∧ s.server.returned k = false

theorem isFree_running {stolen : Bool} (hp : s.pool.threads i = .running k stolen) :
    s.isFree i = s.server.returned k := by
  unfold isFree
  rw [hp]

theorem Busy.not_free (hi : s.Busy i k) : ¬ s.isFree i = true := by
  obtain ⟨⟨stolen, hp⟩, hreturned⟩ := hi
  rw [isFree_running hp, hreturned]
  exact Bool.false_ne_true

theorem Busy.lt (hi : s.Busy i k) (hs : Sound regex router s) (hn : 0 < n) : k < s.server.tasks.length := by
  obtain ⟨⟨stolen, hp⟩, -⟩ := hi
  rw [← hs.toLinked.enqueued_eq hn]
  exact (hs.pool.running hp).1

/-- The thread can make a call of the task. -/
theorem Busy.possible (hi : s.Busy i k) (hs : Sound regex router s) (hn : 0 < n) (release : ℕ → ℕ) :
    ∃ l, step regex router release s (.call i l) ≠ none := by
  have hlt := hi.lt hs hn
  obtain ⟨⟨stolen, hp⟩, hreturned⟩ := hi
  obtain ⟨l, hl, hsome⟩ := @Server.exists_call regex router _ _ hlt hreturned
  obtain ⟨server, hserver⟩ := Option.isSome_iff_exists.mp hsome
  exact ⟨l, by simp [step, hp, hl, hserver]⟩

/-- A thread in a task makes the calls of that task only. -/
theorem Busy.own (hi : s.Busy i k) (h : Next regex router release s a s') (ha : a ∈ acts (.thread i)) :
    ∃ l, a = .call i l ∧ l.task = some k := by
  rcases ha with rfl | ⟨l, rfl⟩
  · cases h with
    | thread hfree => exact absurd hfree hi.not_free
  · cases h with
    | call hp' hl =>
      obtain ⟨⟨stolen, hp⟩, -⟩ := hi
      rw [hp] at hp'
      obtain ⟨rfl, -⟩ := Place.running.inj hp'
      exact ⟨l, rfl, hl⟩

/-- A thread that makes a call is in a task that has not returned. -/
theorem call_not_free {l : Step} (h : Next regex router release s (.call i l) s') : ¬ s.isFree i = true := by
  cases h with
  | call hp hl hserver =>
    rw [isFree_running hp, (Server.next_call (Server.next_of_step hserver) hl).1]
    exact Bool.false_ne_true

/-- A thread moves by its own steps only. -/
theorem threads_next (h : Next regex router release s a s') (ha : a ≠ .thread i) :
    s'.pool.threads i = s.pool.threads i := by
  have hpool : ∀ {b p}, ThreadPool.step release s.pool b = some p → b ≠ .thread i → p.threads i = s.pool.threads i :=
    fun hp hb => ThreadPool.threads_next (ThreadPool.next_of_step hp) hb
  cases h with
  | turn => rfl
  | enqueue _ _ _ hstep => exact hpool hstep nofun
  | call => rfl
  | thread _ hstep =>
    refine hpool hstep fun he => ha ?_
    rw [NiceHttp.Act.thread.inj he]
  | owner hstep => exact hpool hstep nofun
  | leave _ hstep => exact hpool hstep nofun

/-- A task that has returned stays so. -/
theorem returned_next (h : Next regex router release s a s') (hk : s.server.returned k = true) :
    s'.server.returned k = true := by
  cases h with
  | turn _ _ hstep => exact Server.returned_next (Server.next_of_step hstep) hk
  | enqueue _ hstep => exact Server.returned_next (Server.next_of_step hstep) hk
  | call _ _ hstep => exact Server.returned_next (Server.next_of_step hstep) hk
  | _ => exact hk

/-- A step is a call of the task, or leaves it where it is. -/
theorem Busy.next (hi : s.Busy i k) (hs : Sound regex router s) (hn : 0 < n) (h : Next regex router release s a s') :
    (∃ j l, a = .call j l ∧ l.task = some k ∧ Server.Next regex router s.server l s'.server) ∨
      s'.server.tasks[k]? = s.server.tasks[k]? ∧ a ∉ acts (.thread i) := by
  have hlt := hi.lt hs hn
  have hserver : ∀ {l server}, s.server.step regex router l = some server → l.task ≠ some k →
      server.tasks[k]? = s.server.tasks[k]? :=
    fun hp hl => Server.phase_next (Server.next_of_step hp) hl hlt
  have hown : (∀ l, a = .call i l → l.task ≠ some k) → a ∉ acts (.thread i) := by
    intro hno ha
    obtain ⟨l, hl, hk⟩ := hi.own h ha
    exact hno l hl hk
  cases h with
  | turn _ hl hstep => exact Or.inr ⟨hserver hstep (by rw [hl]; nofun), hown nofun⟩
  | enqueue hl hstep => exact Or.inr ⟨hserver hstep (by rw [hl]; nofun), hown nofun⟩
  | @call j l _ t _ _ hl hstep =>
    by_cases htk : l.task = some k
    · exact Or.inl ⟨j, l, rfl, htk, Server.next_of_step hstep⟩
    · refine Or.inr ⟨hserver hstep htk, hown fun l' he => ?_⟩
      obtain ⟨-, rfl⟩ := Act.call.inj he
      exact htk
  | thread => exact Or.inr ⟨rfl, hown nofun⟩
  | owner => exact Or.inr ⟨rfl, hown nofun⟩
  | leave => exact Or.inr ⟨rfl, hown nofun⟩

/-- The thread stays with its task. -/
theorem Busy.stays (hi : s.Busy i k) (h : Next regex router release s a s') (hk : s'.server.returned k = false) :
    s'.Busy i k := by
  have hne : a ≠ .thread i := by
    rintro rfl
    cases h with
    | thread hfree => exact hi.not_free hfree
  obtain ⟨⟨stolen, hp⟩, -⟩ := hi
  exact ⟨⟨stolen, (threads_next h hne).trans hp⟩, hk⟩

/-- **A task that is begun returns**, if it does not receive without end. -/
theorem busy_leads_to_returned (hfair : IsFair b) (h0 : b.state 0 = {}) (hn : 0 < n) (hk : Receives b k) (i : Fin n) :
    b.LeadsTo (fun s => s.Busy i k) (fun s => s.server.returned k = true) := by
  obtain ⟨m, hm⟩ := hk
  -- from the time of the last `recv` on every call of the task lowers what is left
  have hlater : (b.drop m).LeadsTo (fun s => s.Busy i k) (fun s => s.server.returned k = true) := by
    refine Behaviour.leads_to (κ := Unit) (A := fun _ => acts (.thread i)) (fun s => s.server.left k) (fun _ _ => True)
      (fun _ => (hfair (.thread i)).drop m) (fun _ => ⟨(), trivial⟩) ?_ ?_
    · intro j _ hi _
      obtain ⟨l, hl⟩ := hi.possible (sound_state h0 (m + j)) hn release
      exact ⟨.call i l, Or.inr ⟨l, rfl⟩, hl⟩
    intro j a _ ha hi _
    have hnext := next_of_step ((b.drop m).moves ha)
    by_cases hreturned : ((b.drop m).state (j + 1)).server.returned k = true
    · exact Or.inl hreturned
    refine Or.inr ⟨hi.stays hnext (Bool.eq_false_iff.mpr hreturned), ?_⟩
    refine (hi.next (sound_state h0 (m + j)) hn hnext).imp ?_ fun ⟨htask, hother⟩ => ⟨?_, trivial, hother⟩
    · rintro ⟨j', l, rfl, hl, hserver⟩
      refine (Server.left_next hserver hl fun r he => ?_).resolve_left hreturned
      exact hm (m + j) (Nat.le_add_right m j) j' r (he ▸ ha)
    · rw [Server.left, htask]
      rfl
  intro j hj
  by_contra hno
  have hnever : ∀ l, j ≤ l → (b.state l).server.returned k = false := fun l hl =>
    Bool.eq_false_iff.mpr fun hreturned => hno ⟨l, hl, hreturned⟩
  have hbusy : (b.state (max j m)).Busy i k := by
    refine b.kept (I := fun s => s.Busy i k) (fun {l a} hl ha hi => ?_) hj (le_max_left j m)
    exact hi.stays (next_of_step (b.moves ha)) (hnever (l + 1) (hl.trans (Nat.le_succ l)))
  obtain ⟨l, hl, hreturned⟩ := hlater.of_drop (le_max_right j m) hbusy
  exact hno ⟨l, (le_max_left j m).trans hl, hreturned⟩

/-! ### The pool in the whole -/

/-- The step of the pool in a step of the whole. -/
def poolAct (s : Pooled n) (a : Act n) : Option (NiceHttp.Act n) := (poolActs s a).head?

/-- A behaviour of the whole is one of the pool. -/
def poolBehaviour (b : Behaviour (step (n := n) regex router release)) : Behaviour (ThreadPool.step (n := n) release) :=
  b.map Pooled.pool poolAct
    (fun h hc => by
      cases next_of_step h with
      | turn _ _ _ hno =>
        simp only [poolAct, poolActs, hno] at hc
        cases hc
      | enqueue _ _ hyes hpool =>
        simp only [poolAct, poolActs, hyes] at hc
        cases hc
        exact hpool
      | call => cases hc
      | thread _ hpool =>
        cases hc
        exact hpool
      | owner hpool =>
        cases hc
        exact hpool
      | leave _ hpool =>
        cases hc
        exact hpool)
    (fun h hc => by
      cases next_of_step h with
      | turn => rfl
      | enqueue _ _ hyes =>
        simp only [poolAct, poolActs, hyes] at hc
        cases hc
      | call => rfl
      | thread => cases hc
      | owner => cases hc
      | leave => cases hc)

/-- **The pool of a fair behaviour is fair**: a thread that is in a task comes
back to its loop. -/
theorem pool_isFair (hfair : IsFair b) (h0 : b.state 0 = {}) (hn : 0 < n) (hreceives : ∀ k, Receives b k) :
    ThreadPool.IsFair (poolBehaviour b) := by
  rintro (- | i) j
  · obtain ⟨m, hjm, hm⟩ := hfair .owner j
    refine ⟨m, hjm, hm.imp ?_ ?_⟩
    · rintro ⟨a, rfl, ha⟩
      refine ⟨.owner, rfl, ?_⟩
      show (b.act m).bind _ = _
      rw [ha]
      rfl
    · rintro hnone a rfl
      exact Option.map_eq_none_iff.mp (hnone .owner rfl)
  by_contra hno
  -- the thread would be where it is for ever, and free from some time on
  have hact : ∀ m, j ≤ m → b.act m ≠ some (.thread i) := by
    refine fun m hm ha => hno ⟨m, hm, Or.inl ⟨.thread i, rfl, ?_⟩⟩
    show (b.act m).bind _ = _
    rw [ha]
    rfl
  have hpossible : ∀ m, j ≤ m → ThreadPool.step release (b.state m).pool (.thread i) ≠ none := by
    refine fun m hm hnone => hno ⟨m, hm, Or.inr ?_⟩
    rintro a rfl
    exact hnone
  have hthread : ∀ m, j ≤ m → (b.state m).pool.threads i = (b.state j).pool.threads i := by
    refine fun m hm => b.kept (I := fun s => s.pool.threads i = (b.state j).pool.threads i) (fun {l a} hl ha hi => ?_) rfl hm
    exact (threads_next (next_of_step (b.moves ha)) fun he => hact l hl (he ▸ ha)).trans hi
  have hfree : ∃ m, j ≤ m ∧ ∀ l, m ≤ l → (b.state l).isFree i = true := by
    cases hp : (b.state j).pool.threads i with
    | running k stolen =>
      have hreturns : ∃ m, j ≤ m ∧ (b.state m).server.returned k = true := by
        by_cases hreturned : (b.state j).server.returned k = true
        · exact ⟨j, le_rfl, hreturned⟩
        · exact busy_leads_to_returned hfair h0 hn (hreceives k) i j ⟨⟨stolen, hp⟩, Bool.eq_false_iff.mpr hreturned⟩
      obtain ⟨m, hjm, hm⟩ := hreturns
      refine ⟨m, hjm, fun l hl => ?_⟩
      rw [isFree_running ((hthread l (hjm.trans hl)).trans hp)]
      exact b.kept (I := fun s => s.server.returned k = true)
        (fun _ ha hk => returned_next (next_of_step (b.moves ha)) hk) hm hl
    | _ =>
      refine ⟨j, le_rfl, fun l hl => ?_⟩
      unfold isFree
      rw [hthread l hl, hp]
  obtain ⟨m, hjm, hfree⟩ := hfree
  obtain ⟨l, hml, hturn⟩ := hfair (.thread i) m
  rcases hturn with ⟨a, rfl | ⟨c, rfl⟩, ha⟩ | hnone
  · exact hact l (hjm.trans hml) ha
  · exact call_not_free (next_of_step (b.moves ha)) (hfree l hml)
  · have hstep := hnone (.thread i) (Or.inl rfl)
    simp only [step, hfree l hml, if_true] at hstep
    exact hpossible l (hjm.trans hml) (Option.map_eq_none_iff.mp hstep)

/-- The pool is destroyed on the way out of `start`. -/
theorem leave_of_destroy {m : ℕ} (hm : (poolBehaviour b).act m = some .destroy) : b.act m = some .leave := by
  obtain ⟨a, ha, hpool⟩ := Option.bind_eq_some_iff.mp hm
  rw [ha]
  cases a with
  | leave => rfl
  | loop l =>
    simp only [poolAct, poolActs] at hpool
    split at hpool <;> cases hpool
  | _ => cases hpool

theorem destroy_of_leave {m : ℕ} (hm : b.act m = some .leave) : (poolBehaviour b).act m = some .destroy := by
  show (b.act m).bind _ = _
  rw [hm]
  rfl

/-! ### What follows for the whole -/

/-- **Every task that is enqueued is served.** In every fair behaviour in
which no task receives without end, a whole call of `parsereq` is made for each
task that is enqueued, however many connections come, unless the loop is left
with a task in a queue and all threads past the counter. -/
theorem every_task_served (hrelease : ∀ c, release c ≠ 0) (hn : 0 < n) (hfair : IsFair b) (h0 : b.state 0 = {})
    (hreceives : ∀ k, Receives b k) {j k : ℕ} (hk : k < (b.state j).server.tasks.length) :
    (∃ m, j ≤ m ∧ ∃ ns o, parsereq regex router ns = some o ∧ (b.state m).server.calls k = o.syscalls) ∨
      ∃ m, b.act m = some .leave ∧ (∃ i, (b.state m).pool.tasks i ≠ []) ∧
        ∀ i, ((b.state m).pool.threads i).isPast = true := by
  have hpool := pool_isFair hfair h0 hn hreceives
  have hstart : (poolBehaviour b).state 0 = {} := congrArg Pooled.pool h0
  have henqueued : k < ((poolBehaviour b).state j).enqueued := by
    rw [← (sound_state h0 j).toLinked.enqueued_eq hn] at hk
    exact hk
  have hserved : (∃ m, j ≤ m ∧ k ∈ ((poolBehaviour b).state m).finished) →
      ∃ m, j ≤ m ∧ ∃ ns o, parsereq regex router ns = some o ∧ (b.state m).server.calls k = o.syscalls := by
    rintro ⟨m, hjm, hm⟩
    exact ⟨m, hjm, (sound_state h0 m).served hm⟩
  obtain ⟨m, hjm, hm⟩ := ThreadPool.enqueued_leads_to_finished hrelease hpool hstart k j henqueued
  rcases hm with hm | hm
  · exact Or.inl (hserved ⟨m, hjm, hm⟩)
  refine (ThreadPool.finishes_of_stopping hrelease hpool hstart hm henqueued).imp hserved ?_
  rintro ⟨d, hd, hlost⟩
  exact ⟨d, leave_of_destroy hd, hlost⟩

/-- **`start` returns.** In every fair behaviour in which no task receives
without end, `start` returns once its loop is left, and every call of
`parsereq` that has begun by then has gone to its end. -/
theorem start_returns (hrelease : ∀ c, release c ≠ 0) (hn : 0 < n) (hfair : IsFair b) (h0 : b.state 0 = {})
    (hreceives : ∀ k, Receives b k) {j : ℕ} (hj : b.act j = some .leave) :
    ∃ m, j < m ∧ (b.state m).pool.owner = .gone ∧ ∀ k, (b.state m).server.calls k ≠ [] →
      ∃ ns o, parsereq regex router ns = some o ∧ (b.state m).server.calls k = o.syscalls := by
  have hpool := pool_isFair hfair h0 hn hreceives
  have hstart : (poolBehaviour b).state 0 = {} := congrArg Pooled.pool h0
  have hdestroy := destroy_of_leave hj
  obtain ⟨m, hjm, hm⟩ := ThreadPool.stopping_leads_to_gone hrelease hpool hstart (j + 1)
    (ThreadPool.isStopping_of_act hdestroy)
  have hs := sound_state h0 m
  have hexited : ∀ i, (b.state m).pool.threads i = .exited := by
    refine fun i => (ThreadPool.stopping_state hrelease hstart m).joined i ?_
    rw [hm]
    trivial
  refine ⟨m, hjm, hm, fun k hk => ?_⟩
  have hlt := hs.lt_of_calls hk
  have hended : (b.state m).server.returned k = true := by
    by_contra hno
    obtain ⟨i, stolen, hi⟩ := hs.toLinked.runs hlt hk (Bool.eq_false_iff.mpr hno)
    rw [hexited i] at hi
    cases hi
  obtain ⟨t, ht, hphase⟩ := Server.returned_iff.mp hended
  exact hs.server.ended ht hphase

/-- One connection, served to its end by the thread, which then looks for more. -/
def oneServed (i : Fin n) : List (Act n) :=
  [.loop (.poll 1), .loop (.accept 5), .loop .enqueue, .owner, .owner, .owner, .thread i, .thread i, .thread i,
    .call i (.recv 0 .eof), .call i (.send 0), .call i (.close 0)] ++ List.replicate 6 (.thread i)

/-- The only thread is woken once more, and `start` returns. -/
def oneReturned (i : Fin n) : List (Act n) := [.owner, .owner] ++ List.replicate 6 (.thread i) ++ [.owner, .owner]

/-- The run of one connection, up to the return of `start`. -/
def oneWhole (i : Fin n) : List (Act n) := oneServed i ++ .loop (.poll 0) :: .leave :: oneReturned i

theorem oneWhole_fair {s : Pooled 1} (hrun : run (step demoRegex {} Nat.succ) ({} : Pooled 1) (oneWhole 0) = some s) :
    IsFair (Behaviour.padded hrun) ∧ ∀ k, Receives (Behaviour.padded hrun) k := by
  have hend : s.pool.owner = .gone ∧ s.pool.threads 0 = .exited := by
    obtain rfl := Option.some.inj hrun
    exact ⟨rfl, rfl⟩
  refine ⟨fun c => Behaviour.fair_padded hrun fun a ha => ?_, fun k => ⟨(oneWhole (0 : Fin 1)).length, fun j hj i r => ?_⟩⟩
  · cases c with
    | owner =>
      obtain rfl := Set.mem_singleton_iff.mp ha
      simp [step, ThreadPool.step, ThreadPool.ownerStep, hend.1]
    | thread i =>
      rw [Fin.fin_one_eq_zero i] at ha
      rcases ha with rfl | ⟨l, rfl⟩
      · simp [step, ThreadPool.step, ThreadPool.threadStep, hend.2]
      · simp [step, hend.2]
  · show (oneWhole 0)[j]? ≠ _
    rw [List.getElem?_eq_none hj]
    exact Option.some_ne_none _ ∘ Eq.symm

theorem every_task_served_one :
    ∃ b : Behaviour (step (n := 1) demoRegex {} Nat.succ), IsFair b ∧ b.state 0 = {} ∧ (∀ k, Receives b k) ∧
      (b.state 3).server.tasks.length = 1 ∧
      ((∃ m, 3 ≤ m ∧ ∃ ns o, parsereq demoRegex {} ns = some o ∧ (b.state m).server.calls 0 = o.syscalls) ∨
        ∃ m, b.act m = some .leave ∧ (∃ i, (b.state m).pool.tasks i ≠ []) ∧
          ∀ i, ((b.state m).pool.threads i).isPast = true) := by
  obtain ⟨s, hrun⟩ : ∃ s, run (step demoRegex {} Nat.succ) ({} : Pooled 1) (oneWhole 0) = some s := ⟨_, rfl⟩
  obtain ⟨hfair, hreceives⟩ := oneWhole_fair hrun
  have htasks : ((Behaviour.padded hrun).state 3).server.tasks.length = 1 := rfl
  refine ⟨_, hfair, rfl, hreceives, htasks,
    every_task_served Nat.succ_ne_zero one_pos hfair rfl hreceives (j := 3) ?_⟩
  rw [htasks]
  exact one_pos

theorem start_returns_one :
    ∃ b : Behaviour (step (n := 1) demoRegex {} Nat.succ), IsFair b ∧ b.state 0 = {} ∧ (∀ k, Receives b k) ∧
      b.act 19 = some .leave ∧
      ∃ m, 19 < m ∧ (b.state m).pool.owner = .gone ∧ ∀ k, (b.state m).server.calls k ≠ [] →
        ∃ ns o, parsereq demoRegex {} ns = some o ∧ (b.state m).server.calls k = o.syscalls := by
  obtain ⟨s, hrun⟩ : ∃ s, run (step demoRegex {} Nat.succ) ({} : Pooled 1) (oneWhole 0) = some s := ⟨_, rfl⟩
  obtain ⟨hfair, hreceives⟩ := oneWhole_fair hrun
  exact ⟨_, hfair, rfl, hreceives, rfl, start_returns Nat.succ_ne_zero one_pos hfair rfl hreceives rfl⟩

end Fair

end Pooled

end NiceHttp
