/-
# How long the server accepts

The loop of `start` calls `accept` once for each `poll` that finds the socket
ready, in every run. It ends at the first `poll` that finds nothing, also when
this is only that no client came for a minute, and it enqueues a task for each
accepted connection but for one of descriptor 0. So the server stays up, with
every connection in the hands of a task, exactly as long as no `poll` times out
and no `accept` returns 0 (`stays_up_iff`).

Key definitions: `Server.pending`, `Server.Counted`, `Server.Up`.
Key theorems: `counted_of_run`, `Counted.left_iff`, `Counted.tasks_iff`,
`loop_goes_on`.
-/
import NiceHttp.Server

namespace NiceHttp

open Run

/-- A `poll` that finds the socket ready. -/
def Step.isReady : Step → Bool
  | .poll rc => 0 < rc
  | _ => false

/-- A `poll` that finds nothing, or fails. -/
def Step.isEnd : Step → Bool
  | .poll rc => rc ≤ 0
  | _ => false

def Step.isAccept : Step → Bool
  | .accept _ => true
  | _ => false

/-- The descriptor of a connection that was accepted. -/
def Step.connection? : Step → Option ℤ
  | .accept fd => if 0 ≤ fd then some fd else none
  | _ => none

/-- A call of the loop. -/
def Step.ofLoop : Step → Bool
  | .poll _ => true
  | .accept _ => true
  | .enqueue => true
  | _ => false

/-- A step of a task is nothing to the loop. -/
theorem Step.adds_nothing {l : Step} (hl : l.ofLoop = false) :
    l.isEnd = false ∧ l.isReady = false ∧ l.isAccept = false ∧ l.connection? = none := by
  cases l with
  | poll rc => cases hl
  | accept fd => cases hl
  | enqueue => cases hl
  | _ => exact ⟨rfl, rfl, rfl, rfl⟩

namespace Server

/-- The connection that the loop is about to enqueue a task for. -/
def pending (s : Server) : List ℤ :=
  match s.loop, s.clientSocket with
  | .accepted, some fd => if 0 < fd then [fd] else []
  | _, _ => []

/-- The ready `poll` whose `accept` is to come. -/
def waiting (s : Server) : ℕ := if s.loop = .accepting then 1 else 0

/-- What the loop has done, in any run. -/
structure Counted (steps : List Step) (s : Server) : Prop where
  left : s.loop = .left ↔ steps.any Step.isEnd = true
  accepts : steps.countP Step.isReady = steps.countP Step.isAccept + s.waiting
  tasks : (steps.filterMap Step.connection?).filter (· ≠ 0) = s.tasks.map Task.fd ++ s.pending
  current : s.loop = .accepted → s.clientSocket ≠ none

/-- The server is up: the loop goes on, it has called `accept` once for each
ready `poll`, and each accepted connection has its task; but for the call that
comes next. -/
structure Up (steps : List Step) (s : Server) : Prop where
  inLoop : s.loop ≠ .left
  accepts : steps.countP Step.isReady = steps.countP Step.isAccept + s.waiting
  tasks : steps.filterMap Step.connection? = s.tasks.map Task.fd ++ s.pending

section Counted

variable {regex : Regex} {router : Router} {s s' : Server} {steps : List Step} {l : Step}

theorem pending_of_ne (h : s.loop ≠ .accepted) : s.pending = [] := by
  unfold pending
  split
  · rename_i hloop _
    exact absurd hloop h
  · rfl

theorem pending_accepted {fd : ℤ} (h : s.loop = .accepted) (hfd : s.clientSocket = some fd) :
    s.pending = if 0 < fd then [fd] else [] := by
  rw [pending, h, hfd]

/-- **What a step adds** to the counts. -/
theorem Counted.step (hs : Counted steps s) (hleft : s'.loop = .left ↔ s.loop = .left ∨ l.isEnd = true)
    (haccepts : s.waiting + l.isReady.toNat = l.isAccept.toNat + s'.waiting)
    (htasks : s.tasks.map Task.fd ++ s.pending ++ l.connection?.toList.filter (· ≠ 0) =
      s'.tasks.map Task.fd ++ s'.pending)
    (hcurrent : s'.loop = .accepted → s'.clientSocket ≠ none) : Counted (steps ++ [l]) s' := by
  have hready : [l].countP Step.isReady = l.isReady.toNat := by cases h : l.isReady <;> simp [h]
  have haccept : [l].countP Step.isAccept = l.isAccept.toNat := by cases h : l.isAccept <;> simp [h]
  have hconn : [l].filterMap Step.connection? = l.connection?.toList := by cases h : l.connection? <;> simp [h]
  refine ⟨?_, ?_, ?_, hcurrent⟩
  · rw [hleft, hs.left]
    simp
  · have := hs.accepts
    rw [List.countP_append, List.countP_append, hready, haccept]
    omega
  · calc ((steps ++ [l]).filterMap Step.connection?).filter (· ≠ 0)
        = (steps.filterMap Step.connection?).filter (· ≠ 0) ++ l.connection?.toList.filter (· ≠ 0) := by
          rw [List.filterMap_append, List.filter_append, hconn]
      _ = s.tasks.map Task.fd ++ s.pending ++ l.connection?.toList.filter (· ≠ 0) := by rw [hs.tasks]
      _ = s'.tasks.map Task.fd ++ s'.pending := htasks

/-- A system call of a task adds nothing. -/
theorem Counted.act (hs : Counted steps s) (hl : l.ofLoop = false) {k : ℕ} {t : Task} (hk : s.tasks[k]? = some t)
    (phase : Phase) (call : Syscall) : Counted (steps ++ [l]) (s.act k t phase call) := by
  obtain ⟨hend, hready, haccept, hconn⟩ := Step.adds_nothing hl
  refine hs.step ?_ ?_ ?_ hs.current
  · rw [hend]
    exact ⟨Or.inl, fun h => h.resolve_right nofun⟩
  · rw [hready, haccept, Bool.toNat_false, Nat.add_zero, Nat.zero_add]
    rfl
  · rw [hconn, fds_act hk]
    show s.tasks.map Task.fd ++ s.pending ++ [] = s.tasks.map Task.fd ++ s.pending
    rw [List.append_nil]

/-- **A step is counted.** -/
theorem Counted.next (hs : Counted steps s) (h : Next regex router s l s') : Counted (steps ++ [l]) s' := by
  cases h with
  | @ready rc hloop hrc =>
    refine hs.step ?_ ?_ ?_ nofun
    · simp [hloop, Step.isEnd, hrc]
    · simp [waiting, hloop, Step.isReady, Step.isAccept, hrc]
    · simp [pending, hloop, Step.connection?]
  | @leave rc hloop hrc =>
    refine hs.step ?_ ?_ ?_ nofun
    · simp [hloop, Step.isEnd, not_lt.mp hrc]
    · simp [waiting, hloop, Step.isReady, Step.isAccept, hrc]
    · simp [pending, hloop, Step.connection?]
  | refused hloop =>
    refine hs.step ?_ ?_ ?_ fun _ => nofun
    · simp [hloop, Step.isEnd]
    · simp [waiting, hloop, Step.isReady, Step.isAccept]
    · simp [pending, hloop, Step.connection?]
  | @connected fd table hloop hfd htable =>
    refine hs.step ?_ ?_ ?_ fun _ => nofun
    · simp [hloop, Step.isEnd]
    · simp [waiting, hloop, Step.isReady, Step.isAccept]
    · have hpending : s.pending = [] := pending_of_ne (by rw [hloop]; decide)
      rw [hpending, pending_accepted rfl rfl, Step.connection?, if_pos hfd]
      rcases eq_or_lt_of_le hfd with rfl | hpos
      · simp
      · simp [hpos, hpos.ne']
  | @enqueue fd hloop hclient hfd =>
    refine hs.step ?_ ?_ ?_ nofun
    · simp [hloop, Step.isEnd]
    · simp [waiting, hloop, Step.isReady, Step.isAccept]
    · rw [pending_accepted hloop hclient, if_pos hfd]
      simp [pending, Step.connection?]
  | @skip fd hloop hclient hfd =>
    refine hs.step ?_ ?_ ?_ nofun
    · simp [hloop, Step.isEnd]
    · simp [waiting, hloop, Step.isReady, Step.isAccept]
    · rw [pending_accepted hloop hclient, if_neg hfd]
      simp [pending, Step.connection?]
  | recv hk => exact hs.act rfl hk _ _
  | send hk => exact hs.act rfl hk _ _
  | @close k fd hk =>
    have hact := hs.act (l := .close k) rfl hk (.ended (.ok ())) .close
    exact ⟨hact.left, hact.accepts, hact.tasks, hact.current⟩

theorem counted_of_run (hrun : run (step regex router) {} steps = some s) : Counted steps s :=
  history (I := Counted) ⟨by simp, rfl, rfl, fun h => absurd h (by decide)⟩
    (fun hs h => hs.next (next_of_step h)) steps hrun

/-- The loop has a next call until it is left. -/
theorem loop_goes_on (regex : Regex) (router : Router) (hs : Counted steps s) (h : s.loop ≠ .left) :
    ∃ l s', l.ofLoop = true ∧ step regex router s l = some s' := by
  cases hloop : s.loop with
  | polling => exact ⟨.poll 1, _, rfl, by rw [step, if_neg (not_not.mpr hloop), if_pos one_pos]⟩
  | accepting => exact ⟨.accept (-1), _, rfl, by rw [step, if_neg (not_not.mpr hloop), if_pos rfl]⟩
  | accepted =>
    obtain ⟨fd, hfd⟩ := Option.ne_none_iff_exists'.mp (hs.current hloop)
    refine ⟨.enqueue, ?_⟩
    simp only [step, hloop, hfd]
    split
    · exact ⟨_, rfl, rfl⟩
    · exact ⟨_, rfl, rfl⟩
  | left => exact absurd hloop h

/-- Where no `poll` fails, the loop is left by a timeout. -/
theorem Counted.left_iff (hs : Counted steps s) (hpoll : ∀ rc, Step.poll rc ∈ steps → 0 ≤ rc) :
    s.loop = .left ↔ Step.poll 0 ∈ steps := by
  rw [hs.left, List.any_eq_true]
  constructor
  · rintro ⟨l, hl, hend⟩
    cases l with
    | poll rc =>
      obtain rfl : rc = 0 := le_antisymm (of_decide_eq_true hend) (hpoll rc hl)
      exact hl
    | _ => cases hend
  · exact fun h => ⟨_, h, rfl⟩

theorem mem_connection? {steps : List Step} {fd : ℤ} (h : fd ∈ steps.filterMap Step.connection?) :
    Step.accept fd ∈ steps := by
  obtain ⟨l, hl, hconn⟩ := List.mem_filterMap.mp h
  cases l with
  | accept fd' =>
    rw [Step.connection?, Option.ite_none_right_eq_some] at hconn
    obtain ⟨-, hfd'⟩ := hconn
    exact Option.some.inj hfd' ▸ hl
  | _ => cases hconn

/-- Each accepted connection has its task, unless one has descriptor 0. -/
theorem Counted.tasks_iff (hs : Counted steps s) :
    steps.filterMap Step.connection? = s.tasks.map Task.fd ++ s.pending ↔ Step.accept 0 ∉ steps := by
  rw [← hs.tasks, eq_comm, List.filter_eq_self]
  constructor
  · intro h h0
    have hconn : (0 : ℤ) ∈ steps.filterMap Step.connection? := List.mem_filterMap.mpr ⟨_, h0, rfl⟩
    exact of_decide_eq_true (h 0 hconn) rfl
  · intro h0 fd hfd
    exact decide_eq_true fun e => h0 (e ▸ mem_connection? hfd)

/-- **The server stays up exactly as long as no `poll` times out and no `accept`
returns 0**, where no `poll` fails; and while it is up the loop has a next call. -/
theorem stays_up_iff (hrun : run (step regex router) {} steps = some s)
    (hpoll : ∀ rc, Step.poll rc ∈ steps → 0 ≤ rc) :
    (Up steps s ↔ Step.poll 0 ∉ steps ∧ Step.accept 0 ∉ steps) ∧
      (Up steps s → ∃ l s', l.ofLoop = true ∧ step regex router s l = some s') := by
  have hs : Counted steps s := counted_of_run hrun
  have hleft := hs.left_iff hpoll
  refine ⟨⟨fun h => ⟨fun h0 => h.inLoop (hleft.mpr h0), hs.tasks_iff.mp h.tasks⟩, fun h => ?_⟩,
    fun h => loop_goes_on _ _ hs h.inLoop⟩
  exact ⟨fun h0 => h.1 (hleft.mp h0), hs.accepts, hs.tasks_iff.mpr h.2⟩

end Counted

/-- A client, and one that is gone before it is accepted. -/
def twoTurns : List Step := [.poll 1, .accept 5, .enqueue, .poll 1, .accept (-1), .enqueue]

theorem stays_up_iff_two :
    ∃ s, run (step demoRegex {}) {} twoTurns = some s ∧
      (Up twoTurns s ↔ Step.poll 0 ∉ twoTurns ∧ Step.accept 0 ∉ twoTurns) ∧
      (Up twoTurns s → ∃ l s', l.ofLoop = true ∧ step demoRegex {} s l = some s') := by
  have hpoll : ∀ rc, Step.poll rc ∈ twoTurns → 0 ≤ rc := fun rc h => by
    simp only [twoTurns, List.mem_cons, Step.poll.injEq, List.not_mem_nil, reduceCtorEq, or_false, false_or] at h
    omega
  obtain ⟨s, hrun⟩ : ∃ s, run (step demoRegex {}) {} twoTurns = some s := ⟨_, rfl⟩
  exact ⟨s, hrun, stays_up_iff hrun hpoll⟩

/-- An idle minute ends the loop, and a connection of descriptor 0 gets no task. -/
theorem idle_minute_ends_loop :
    (∃ s, run (step demoRegex {}) {} [.poll 0] = some s ∧ s.loop = .left ∧
      ∀ l, l.ofLoop = true → step demoRegex {} s l = none) ∧
    ∃ s, run (step demoRegex {}) {} [.poll 1, .accept 0, .enqueue] = some s ∧ s.accepted = [0] ∧ s.tasks = [] ∧
      s.loop = .polling := by
  refine ⟨⟨_, rfl, rfl, fun l hl => ?_⟩, _, rfl, rfl, rfl, rfl⟩
  cases l with
  | poll rc => rfl
  | accept fd => rfl
  | enqueue => rfl
  | _ => cases hl

end Server

end NiceHttp
