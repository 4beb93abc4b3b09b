/-
# Every connection its own task

In every run the system calls of a task, in their order, are those of a call
of `parsereq` on what the task received (`task_follows_parsereq`), whatever
descriptors they go to.

They go to the task's own connection in every run in which the loop leaves
`client_socket` alone until all tasks have ended: it calls `accept`, and gives
up, only when every task enqueued so far has ended, and no connection gets descriptor 0, which the
test `client_socket > 0` drops (`served_own_connection`). Two connections that
arrive together are enough to break it: the first task works on the second
connection, and the first one is never served (`second_accept_diverts_task`).

Key definitions: `Phase.Trace`, `Server.Traced`, `Server.Owned`,
`Server.Undisturbed`.
Key theorems: `task_follows_parsereq`, `served_own_connection`.
-/
import NiceHttp.Server

namespace NiceHttp

open CString Run

/-! ### A task follows `parsereq` -/

section Trace

variable (regex : Regex) (router : Router)

/-- The system calls of a call of `parsereq` that is in the phase. -/
def Phase.Trace : Phase → List Syscall → Prop
  | receiving r, calls =>
    ∃ ns, calls = ns.map .recv ∧ ∀ more, recvHttp (ns ++ more) = r.run more
  | sending raw, calls =>
    ∃ ns head body, calls = ns.map .recv ∧ recvHttp ns = some ((head, body), []) ∧
      (respond regex router head body).2 = .ok raw
  | closing, calls =>
    ∃ ns head body raw, calls = ns.map .recv ++ [.send raw] ∧ recvHttp ns = some ((head, body), []) ∧
      (respond regex router head body).2 = .ok raw
  | ended result, calls =>
    ∃ ns o, parsereq regex router ns = some o ∧ calls = o.syscalls ∧ result = o.result

variable {regex router}

theorem trace_init : Phase.Trace regex router (.receiving {}) [] := ⟨[], rfl, fun _ => rfl⟩

theorem trace_recv {r : Recv} {calls : List Syscall} (h : Phase.Trace regex router (.receiving r) calls)
    (n : RecvResult) :
    Phase.Trace regex router (Server.afterTurn regex router (r.turn n)) (calls ++ [.recv n]) := by
  obtain ⟨ns, rfl, hns⟩ := h
  have hmap : ns.map Syscall.recv ++ [.recv n] = (ns ++ [n]).map .recv := by simp
  have hrun : ∀ more, recvHttp (ns ++ [n] ++ more) = r.run (n :: more) := by
    intro more
    rw [List.append_assoc]
    exact hns (n :: more)
  rw [hmap]
  cases ht : r.turn n with
  | again r' =>
    refine ⟨ns ++ [n], rfl, fun more => ?_⟩
    rw [hrun, Recv.run, ht]
  | done head body =>
    have hdone : recvHttp (ns ++ [n]) = some ((head, body), []) := by
      have := hrun []
      rwa [List.append_nil, Recv.run, ht] at this
    simp only [Server.afterTurn]
    cases hresp : (respond regex router head body).2 with
    | ok raw => exact ⟨ns ++ [n], head, body, rfl, hdone, hresp⟩
    | error e =>
      refine ⟨ns ++ [n], ⟨(ns ++ [n]).map .recv, (respond regex router head body).1, .error e⟩, ?_, rfl, rfl⟩
      unfold parsereq
      rw [hdone]
      simp only [List.length_nil, Nat.sub_zero, List.take_length]
      rw [← Prod.mk.eta (p := respond regex router head body), hresp]

theorem trace_send {raw : Str} {calls : List Syscall} (h : Phase.Trace regex router (.sending raw) calls) :
    Phase.Trace regex router .closing (calls ++ [.send raw]) := by
  obtain ⟨ns, head, body, rfl, hrecv, hresp⟩ := h
  exact ⟨ns, head, body, raw, rfl, hrecv, hresp⟩

theorem trace_close {calls : List Syscall} (h : Phase.Trace regex router .closing calls) :
    Phase.Trace regex router (.ended (.ok ())) (calls ++ [.close]) := by
  obtain ⟨ns, head, body, raw, rfl, hrecv, hresp⟩ := h
  refine ⟨ns, ⟨ns.map .recv ++ [.send raw, .close], (respond regex router head body).1, .ok ()⟩, ?_, ?_, rfl⟩
  · unfold parsereq
    rw [hrecv]
    simp only [List.length_nil, Nat.sub_zero, List.take_length]
    rw [← Prod.mk.eta (p := respond regex router head body), hresp]
  · simp

/-- A call of `parsereq` closes at most once, whatever phase it is in. -/
theorem trace_close_le {phase : Phase} {calls : List Syscall} (h : Phase.Trace regex router phase calls) :
    calls.countP Syscall.isClose ≤ 1 := by
  have hrecv : ∀ ns : List RecvResult, (ns.map Syscall.recv).countP Syscall.isClose = 0 :=
    countP_recv Syscall.isClose fun _ => rfl
  cases phase with
  | receiving r =>
    obtain ⟨ns, rfl, -⟩ := h
    rw [hrecv]
    exact Nat.zero_le 1
  | sending raw =>
    obtain ⟨ns, -, -, rfl, -⟩ := h
    rw [hrecv]
    exact Nat.zero_le 1
  | closing =>
    obtain ⟨ns, -, -, raw, rfl, -⟩ := h
    rw [List.countP_append, hrecv]
    exact Nat.zero_le 1
  | ended result =>
    obtain ⟨ns, o, ho, rfl, -⟩ := h
    obtain ⟨-, -, -, req, -, received, -, -, rfl⟩ := served_eq ho
    unfold served
    cases (router.handle regex req).result with
    | error e =>
      rw [hrecv]
      exact Nat.zero_le 1
    | ok resp =>
      rw [List.countP_append, hrecv]
      exact le_refl 1

end Trace

theorem getElem?_concat {α : Type*} {l : List α} {a b : α} {k : ℕ} (h : (l ++ [a])[k]? = some b) :
    l[k]? = some b ∨ k = l.length ∧ a = b := by
  rw [List.getElem?_append] at h
  split at h
  · exact Or.inl h
  · right
    obtain ⟨hk, hab⟩ := List.getElem?_eq_some_iff.mp h
    rw [List.length_singleton] at hk
    refine ⟨by omega, ?_⟩
    simpa using hab

namespace Server

/-- The system calls of task `k`, in their order. -/
def calls (s : Server) (k : ℕ) : List Syscall := (s.log.filter fun o => o.task = k).map Op.call

section Traced

variable (regex : Regex) (router : Router)

/-- Every task is in `parsereq`, after the system calls it made. -/
structure Traced (s : Server) : Prop where
  tasks : ∀ o ∈ s.log, o.task < s.tasks.length
  trace : ∀ (k : ℕ) (t : Task), s.tasks[k]? = some t → t.phase.Trace regex router (s.calls k)

variable {regex router} {s : Server}

theorem calls_act_self (k : ℕ) (t : Task) (phase : Phase) (call : Syscall) :
    (s.act k t phase call).calls k = s.calls k ++ [call] := by
  simp [calls, act]

theorem calls_act_ne {j k : ℕ} (h : k ≠ j) (t : Task) (phase : Phase) (call : Syscall) :
    (s.act k t phase call).calls j = s.calls j := by
  simp [calls, act, h]

/-- A system call keeps the invariant if it fits the phase of its task. -/
theorem Traced.act (hs : Traced regex router s) {k : ℕ} {t : Task} (hk : s.tasks[k]? = some t)
    {phase : Phase} {call : Syscall} (h : phase.Trace regex router (s.calls k ++ [call])) :
    Traced regex router (s.act k t phase call) := by
  have hlt : k < s.tasks.length := (List.getElem?_eq_some_iff.mp hk).1
  constructor
  · intro o ho
    simp only [Server.act, List.length_set]
    rcases List.mem_append.mp ho with ho | ho
    · exact hs.tasks o ho
    · rw [List.mem_singleton.mp ho]
      exact hlt
  · intro j u hj
    by_cases hjk : k = j
    · subst hjk
      simp only [Server.act, List.getElem?_set_self hlt, Option.some.injEq] at hj
      rw [calls_act_self, ← hj]
      exact h
    · simp only [Server.act, List.getElem?_set_ne hjk] at hj
      rw [calls_act_ne hjk]
      exact hs.trace j u hj

/-- **A step keeps every task in `parsereq`.** -/
theorem Traced.next (hs : Traced regex router s) {l : Step} {s' : Server} (h : Next regex router s l s') :
    Traced regex router s' := by
  cases h with
  | ready => exact ⟨hs.tasks, hs.trace⟩
  | leave => exact ⟨hs.tasks, hs.trace⟩
  | refused => exact ⟨hs.tasks, hs.trace⟩
  | connected => exact ⟨hs.tasks, hs.trace⟩
  | skip => exact ⟨hs.tasks, hs.trace⟩
  | @enqueue fd =>
    refine ⟨fun o ho => ?_, fun k t hk => ?_⟩
    · have := hs.tasks o ho
      simp only [List.length_append, List.length_singleton]
      omega
    · rcases getElem?_concat hk with hk | ⟨rfl, rfl⟩
      · exact hs.trace k t hk
      · -- the new task has made no system call
        have hnone : s.calls s.tasks.length = [] := by
          rw [calls, List.map_eq_nil_iff, List.filter_eq_nil_iff]
          intro o ho
          have := hs.tasks o ho
          simp only [decide_eq_true_eq]
          omega
        show Phase.Trace regex router (.receiving {}) (s.calls s.tasks.length)
        rw [hnone]
        exact trace_init
  | @recv k n fd r hk => exact hs.act hk (trace_recv (hs.trace k _ hk) _)
  | @send k fd raw hk => exact hs.act hk (trace_send (hs.trace k _ hk))
  | @close k fd hk =>
    have hact := hs.act hk (trace_close (hs.trace k _ hk))
    exact ⟨hact.tasks, hact.trace⟩

theorem traced_init : Traced regex router {} := ⟨fun _ ho => absurd ho List.not_mem_nil, fun _ _ hk => by simp at hk⟩

/-- **Every task follows `parsereq`**, in every run. -/
theorem task_follows_parsereq {steps : List Step} (hrun : run (step regex router) {} steps = some s) :
    Traced regex router s :=
  invariant (fun hs _ h => hs.next (next_of_step h)) traced_init
    (always_of_forall (fun _ _ => trivial) _ steps) hrun

end Traced

/-! ### A task works on its own connection -/

/-- Every task that was enqueued has ended. -/
def Idle (s : Server) : Prop := ∀ t ∈ s.tasks, t.phase.isEnded

/-- The step does not change `client_socket` before all tasks have ended, and does
not give a connection the descriptor 0. -/
def Undisturbed (s : Server) : Step → Prop
  | .poll rc => 0 < rc ∨ s.Idle
  | .accept fd => s.Idle ∧ fd ≠ 0
  | _ => True

instance (s : Server) : Decidable s.Idle := inferInstanceAs (Decidable (∀ t ∈ s.tasks, t.phase.isEnded))

instance (s : Server) : ∀ l, Decidable (s.Undisturbed l)
  | .poll rc => inferInstanceAs (Decidable (0 < rc ∨ s.Idle))
  | .accept fd => inferInstanceAs (Decidable (s.Idle ∧ fd ≠ 0))
  | .enqueue => isTrue trivial
  | .recv _ _ => isTrue trivial
  | .send _ => isTrue trivial
  | .close _ => isTrue trivial

/-- Task `k` is the one for connection `k`, and until it has ended
`client_socket` is the descriptor of that connection. -/
structure Owned (s : Server) : Prop where
  current : ∀ (k : ℕ) (t : Task), s.tasks[k]? = some t → t.phase.isEnded = false →
    s.loop ≠ .accepted ∧ s.clientSocket = some t.fd ∧ s.table.names t.fd = some k
  ops : ∀ o ∈ s.log, ∃ t, s.tasks[o.task]? = some t ∧ o.fd = some t.fd ∧ o.conn = some o.task
  queued : s.loop ≠ .accepted → s.tasks.map Task.fd = s.accepted
  arrived : s.loop = .accepted → s.Idle ∧
    (s.clientSocket = some (-1) ∧ s.tasks.map Task.fd = s.accepted ∨
      ∃ fd, s.clientSocket = some fd ∧ 0 < fd ∧ s.table.names fd = some s.tasks.length ∧
        s.tasks.map Task.fd ++ [fd] = s.accepted)
  issued : s.table.issued = s.accepted.length

section Owned

variable {regex : Regex} {router : Router} {s : Server}

theorem not_running {k : ℕ} {t : Task} (hi : s.Idle) (hk : s.tasks[k]? = some t) : t.phase.isEnded ≠ false := by
  rw [hi t (List.mem_of_getElem? hk)]
  decide

/-- A task that has not ended reads the descriptor of its own connection. -/
theorem Owned.conn (hs : Owned s) {k : ℕ} {t : Task} (hk : s.tasks[k]? = some t) (ht : t.phase.isEnded = false) :
    s.conn = some k := by
  obtain ⟨-, hclient, hname⟩ := hs.current k t hk ht
  rw [Server.conn, hclient]
  exact hname

/-- A system call of a task keeps the invariant. -/
theorem Owned.act (hs : Owned s) {k : ℕ} {t : Task} (hk : s.tasks[k]? = some t) (ht : t.phase.isEnded = false)
    (phase : Phase) (call : Syscall) : Owned (s.act k t phase call) := by
  obtain ⟨hloop, hclient, hname⟩ := hs.current k t hk ht
  have hlt : k < s.tasks.length := (List.getElem?_eq_some_iff.mp hk).1
  refine ⟨fun j u hj hu => ?_, fun o ho => ?_, fun _ => ?_, fun h => absurd h hloop, hs.issued⟩
  · by_cases hjk : k = j
    · subst hjk
      simp only [Server.act, List.getElem?_set_self hlt, Option.some.injEq] at hj
      rw [← hj]
      exact ⟨hloop, hclient, hname⟩
    · simp only [Server.act, List.getElem?_set_ne hjk] at hj
      exact hs.current j u hj hu
  · -- the descriptors of the tasks stay
    have hkeep : ∀ (j : ℕ) (u : Task), s.tasks[j]? = some u →
        ∃ u', (s.tasks.set k { t with phase := phase })[j]? = some u' ∧ u'.fd = u.fd := by
      intro j u hj
      by_cases hjk : k = j
      · subst hjk
        obtain rfl := Option.some.inj (hk.symm.trans hj)
        exact ⟨_, List.getElem?_set_self hlt, rfl⟩
      · exact ⟨u, by rw [List.getElem?_set_ne hjk, hj], rfl⟩
    simp only [Server.act] at ho ⊢
    rcases List.mem_append.mp ho with ho | ho
    · obtain ⟨u, hu, hfd, hconn⟩ := hs.ops o ho
      obtain ⟨u', hu', hfd'⟩ := hkeep _ u hu
      exact ⟨u', hu', hfd.trans (congrArg some hfd'.symm), hconn⟩
    · obtain rfl := List.mem_singleton.mp ho
      obtain ⟨u', hu', hfd'⟩ := hkeep k t hk
      exact ⟨u', hu', hclient.trans (congrArg some hfd'.symm), hs.conn hk ht⟩
  · exact (fds_act hk phase call).trans (hs.queued hloop)

/-- A connection that arrives when all tasks have ended waits for its task. -/
theorem Owned.connected (hs : Owned s) (hi : s.Idle) {fd : ℤ} (hloop : s.loop ≠ .accepted) (hfd : 0 < fd)
    {table : Handles.Table ℤ} (htable : s.table.acquire fd = some table) :
    Owned { s with loop := .accepted, clientSocket := some fd, accepted := s.accepted ++ [fd], table := table } := by
  have hqueued := hs.queued hloop
  have hlen : s.tasks.length = s.accepted.length := by rw [← hqueued, List.length_map]
  have hname : table.names fd = some s.tasks.length := by
    rw [Handles.Table.acquire_names htable, if_pos rfl, hs.issued, hlen]
  obtain ⟨-, rfl⟩ := Handles.Table.acquire_eq htable
  refine ⟨fun k t hk ht => absurd ht (not_running hi hk), hs.ops, fun h => absurd rfl h,
    fun _ => ⟨hi, Or.inr ⟨fd, rfl, hfd, hname, ?_⟩⟩, ?_⟩
  · rw [hqueued]
  · simp [hs.issued]

/-- The connection that waits gets its task. -/
theorem Owned.enqueue (hs : Owned s) {fd : ℤ} (hloop : s.loop = .accepted) (hclient : s.clientSocket = some fd)
    (hfd : 0 < fd) : Owned { s with loop := .polling, tasks := s.tasks ++ [{ fd := fd }] } := by
  obtain ⟨hi, hfd' | ⟨fd', hclient', -, hname, hqueued⟩⟩ := hs.arrived hloop
  · have := Option.some.inj (hclient.symm.trans hfd'.1)
    omega
  · obtain rfl := Option.some.inj (hclient.symm.trans hclient')
    refine ⟨fun k t hk ht => ?_, fun o ho => ?_, fun _ => ?_, nofun, hs.issued⟩
    · rcases getElem?_concat hk with hk | ⟨rfl, rfl⟩
      · exact absurd ht (not_running hi hk)
      · exact ⟨nofun, hclient, hname⟩
    · obtain ⟨t, ht, hrest⟩ := hs.ops o ho
      exact ⟨t, by rw [List.getElem?_append_left (List.getElem?_eq_some_iff.mp ht).1, ht], hrest⟩
    · simpa using hqueued

/-- A task closes its own connection, and has ended. -/
theorem Owned.close (hs : Owned s) {k : ℕ} {fd : ℤ} (hk : s.tasks[k]? = some ⟨fd, .closing⟩) :
    Owned { s.act k ⟨fd, .closing⟩ (.ended (.ok ())) .close with table := s.closed } := by
  obtain ⟨hloop, hclient, hname⟩ := hs.current k _ hk rfl
  have hact := hs.act hk rfl (.ended (.ok ())) .close
  have hissued : s.closed.issued = s.accepted.length := by
    rw [Server.closed, hclient]
    exact hs.issued
  refine ⟨fun j t hj ht => ?_, hact.ops, hact.queued, fun h => absurd h hloop, hissued⟩
  -- another task that has not ended would be the one that closes
  exfalso
  obtain ⟨-, hclient', hname'⟩ := hact.current j t hj ht
  obtain rfl : fd = t.fd := Option.some.inj (hclient.symm.trans hclient')
  obtain rfl : k = j := Option.some.inj (hname.symm.trans hname')
  have hlt : k < s.tasks.length := (List.getElem?_eq_some_iff.mp hk).1
  simp only [Server.act, List.getElem?_set_self hlt, Option.some.injEq] at hj
  rw [← hj] at ht
  cases ht

/-- **An undisturbed step keeps the invariant.** -/
theorem Owned.next (hs : Owned s) {l : Step} (hok : s.Undisturbed l) {s' : Server}
    (h : Next regex router s l s') : Owned s' := by
  cases h with
  | ready hloop =>
    refine ⟨fun k t hk ht => ?_, hs.ops, fun _ => hs.queued (by rw [hloop]; decide), nofun, hs.issued⟩
    exact ⟨nofun, (hs.current k t hk ht).2⟩
  | leave hloop hrc =>
    have hi : s.Idle := hok.resolve_left hrc
    refine ⟨fun k t hk ht => ?_, hs.ops, fun _ => hs.queued (by rw [hloop]; decide), nofun, hs.issued⟩
    exact absurd ht (not_running hi hk)
  | refused hloop =>
    refine ⟨fun k t hk ht => absurd ht (not_running hok.1 hk), hs.ops, fun h => absurd rfl h,
      fun _ => ⟨hok.1, ?_⟩, hs.issued⟩
    exact Or.inl ⟨rfl, hs.queued (by rw [hloop]; decide)⟩
  | connected hloop hfd htable =>
    have hpos := lt_of_le_of_ne hfd hok.2.symm
    exact hs.connected hok.1 (by rw [hloop]; decide) hpos htable
  | enqueue hloop hclient hfd => exact hs.enqueue hloop hclient hfd
  | @skip fd hloop hclient hfd =>
    obtain ⟨hi, ⟨-, hqueued⟩ | ⟨fd', hclient', hfd', -⟩⟩ := hs.arrived hloop
    · exact ⟨fun k t hk ht => absurd ht (not_running hi hk), hs.ops, fun _ => hqueued, nofun, hs.issued⟩
    · obtain rfl := Option.some.inj (hclient.symm.trans hclient')
      exact absurd hfd' hfd
  | recv hk => exact hs.act hk rfl _ _
  | send hk => exact hs.act hk rfl _ _
  | close hk => exact hs.close hk

theorem owned_init : Owned {} :=
  ⟨fun _ _ hk => by simp at hk, fun _ ho => absurd ho List.not_mem_nil, fun _ => rfl, nofun, rfl⟩

theorem owned_of_run {steps : List Step} (hok : Always (step regex router) Undisturbed {} steps)
    (hrun : run (step regex router) {} steps = some s) : Owned s :=
  invariant (fun hs hok h => hs.next hok (next_of_step h)) owned_init hok hrun

/-- The tasks are those of the accepted connections, but for the last one
before its enqueueing. -/
theorem Owned.fds_eq (hs : Owned s) :
    s.tasks.map Task.fd = s.accepted ∨
      s.loop = .accepted ∧ ∃ fd, s.clientSocket = some fd ∧ s.tasks.map Task.fd ++ [fd] = s.accepted := by
  by_cases hloop : s.loop = .accepted
  · obtain ⟨-, ⟨-, hq⟩ | ⟨fd, hclient, -, -, hq⟩⟩ := hs.arrived hloop
    · exact Or.inl hq
    · exact Or.inr ⟨hloop, fd, hclient, hq⟩
  · exact Or.inl (hs.queued hloop)

/-- The descriptor of a task is that of its connection. -/
theorem Owned.fd_accepted (hs : Owned s) {k : ℕ} {t : Task} (hk : s.tasks[k]? = some t) :
    s.accepted[k]? = some t.fd := by
  have hlt : k < (s.tasks.map Task.fd).length := by
    simpa using (List.getElem?_eq_some_iff.mp hk).1
  have hget : (s.tasks.map Task.fd)[k]? = some t.fd := by
    rw [List.getElem?_map, hk]
    rfl
  rcases hs.fds_eq with hq | ⟨-, fd, -, hq⟩
  · rw [← hq, hget]
  · rw [← hq, List.getElem?_append_left hlt, hget]

/-- The system calls on a connection are those of its task. -/
theorem Owned.calls_conn (hs : Owned s) (c : ℕ) :
    (s.log.filter fun o => o.conn = some c).map Op.call = s.calls c := by
  have hfilter : (s.log.filter fun o => o.conn = some c) = s.log.filter fun o => o.task = c := by
    refine List.filter_congr fun o ho => ?_
    obtain ⟨-, -, -, hconn⟩ := hs.ops o ho
    simp only [hconn, Option.some_inj]
  rw [hfilter, calls]

/-- A task closes at most once. -/
theorem Traced.close_le (hs : Traced regex router s) (k : ℕ) : (s.calls k).countP Syscall.isClose ≤ 1 := by
  cases hk : s.tasks[k]? with
  | some t => exact trace_close_le (hs.trace k t hk)
  | none =>
    have hnone : s.calls k = [] := by
      rw [calls, List.map_eq_nil_iff, List.filter_eq_nil_iff]
      intro o ho
      have h1 := hs.tasks o ho
      have h2 := List.getElem?_eq_none_iff.mp hk
      simp only [decide_eq_true_eq]
      omega
    rw [hnone]
    exact Nat.zero_le 1

/-- No connection is closed twice: what closes it is its task. -/
theorem closes_le (hs : Owned s) (ht : Traced regex router s) (c : ℕ) :
    s.log.countP (fun o => o.call.isClose ∧ o.conn = some c) ≤ 1 := by
  calc s.log.countP (fun o => o.call.isClose ∧ o.conn = some c)
      ≤ s.log.countP (fun o => o.call.isClose && decide (o.task = c)) := by
        refine List.countP_mono_left fun o ho hclose => ?_
        obtain ⟨h1, h2⟩ := of_decide_eq_true hclose
        obtain ⟨-, -, -, hconn⟩ := hs.ops o ho
        have hc : o.task = c := Option.some.inj (hconn.symm.trans h2)
        simp [h1, hc]
    _ = (s.calls c).countP Syscall.isClose := by
        rw [calls, List.countP_map, List.countP_filter]
        rfl
    _ ≤ 1 := ht.close_le c

/-- A task that has ended went through `parsereq`. -/
theorem Traced.ended (hs : Traced regex router s) {k : ℕ} {t : Task} (hk : s.tasks[k]? = some t)
    (ht : t.phase.isEnded) : ∃ ns o, parsereq regex router ns = some o ∧ s.calls k = o.syscalls := by
  have htrace := hs.trace k t hk
  cases hphase : t.phase with
  | ended result =>
    rw [hphase] at htrace
    obtain ⟨ns, o, ho, hcalls, -⟩ := htrace
    exact ⟨ns, o, ho, hcalls⟩
  | receiving r =>
    rw [hphase] at ht
    cases ht
  | sending raw =>
    rw [hphase] at ht
    cases ht
  | closing =>
    rw [hphase] at ht
    cases ht

/-- **Every connection its own task.** After a run whose steps leave
`client_socket` alone until all tasks have ended, task `k` is the only one for
connection `k` (the last connection may have its task yet to come); every
system call of it uses the descriptor of the connection, which is open; no
connection is closed twice; and when all tasks have ended, on every connection
a call of `parsereq` has gone to its end. -/
theorem served_own_connection {steps : List Step} (hok : Always (step regex router) Undisturbed {} steps)
    (hrun : run (step regex router) {} steps = some s) :
    (s.tasks.map Task.fd = s.accepted ∨
      s.loop = .accepted ∧ ∃ fd, s.clientSocket = some fd ∧ s.tasks.map Task.fd ++ [fd] = s.accepted) ∧
    (∀ o ∈ s.log, o.fd = s.accepted[o.task]? ∧ (s.tasks[o.task]?).map Task.fd = o.fd ∧
      o.conn = some o.task) ∧
    (∀ c, s.log.countP (fun o => o.call.isClose ∧ o.conn = some c) ≤ 1) ∧
    (s.Idle → s.loop ≠ .accepted → ∀ c < s.accepted.length,
      ∃ ns o, parsereq regex router ns = some o ∧ s.calls c = o.syscalls) := by
  have hs : Owned s := owned_of_run hok hrun
  have ht : Traced regex router s := task_follows_parsereq hrun
  refine ⟨hs.fds_eq, fun o ho => ?_, closes_le hs ht, fun hi hloop c hc => ?_⟩
  · obtain ⟨t, hk, hfd, hconn⟩ := hs.ops o ho
    refine ⟨hfd.trans (hs.fd_accepted hk).symm, ?_, hconn⟩
    rw [hk, hfd]
    rfl
  · have hlt : c < s.tasks.length := by
      rw [← hs.queued hloop, List.length_map] at hc
      exact hc
    exact ht.ended (List.getElem?_eq_getElem hlt) (hi _ (List.getElem_mem hlt))

end Owned

/-- Two connections, served one after the other: the second gets the descriptor
that the first one left. -/
def twoInTurn : List Step :=
  [.poll 1, .accept 5, .enqueue, .recv 0 .eof, .send 0, .close 0, .poll 1, .accept 5, .enqueue, .recv 1 .eof, .send 1,
    .close 1]

theorem served_own_connection_in_turn :
    ∃ s, run (step demoRegex {}) {} twoInTurn = some s ∧ s.accepted = [5, 5] ∧
      s.log.map Op.conn = [some 0, some 0, some 0, some 1, some 1, some 1] ∧
      (s.tasks.map Task.fd = s.accepted ∨
        s.loop = .accepted ∧ ∃ fd, s.clientSocket = some fd ∧ s.tasks.map Task.fd ++ [fd] = s.accepted) ∧
      (∀ o ∈ s.log, o.fd = s.accepted[o.task]? ∧ (s.tasks[o.task]?).map Task.fd = o.fd ∧
        o.conn = some o.task) ∧
      (∀ c, s.log.countP (fun o => o.call.isClose ∧ o.conn = some c) ≤ 1) ∧
      (s.Idle → s.loop ≠ .accepted → ∀ c < s.accepted.length,
        ∃ ns o, parsereq demoRegex {} ns = some o ∧ s.calls c = o.syscalls) := by
  have hok : Always (step demoRegex {}) Undisturbed {} twoInTurn := by decide
  obtain ⟨s, hrun, haccepted, hlog⟩ : ∃ s, run (step demoRegex {}) {} twoInTurn = some s ∧ s.accepted = [5, 5] ∧
      s.log.map Op.conn = [some 0, some 0, some 0, some 1, some 1, some 1] := ⟨_, rfl, rfl, rfl⟩
  exact ⟨s, hrun, haccepted, hlog, served_own_connection hok hrun⟩

/-- Two connections, the second accepted before the first task has begun. -/
def twoConnections : List Step :=
  [.poll 1, .accept 5, .enqueue, .poll 1, .accept 6, .enqueue, .recv 1 .eof, .recv 0 .eof, .send 0, .send 1,
    .close 0, .close 1]

/-- Both tasks work on the second connection and close its descriptor, and the
first connection is left. -/
theorem second_accept_diverts_task :
    ∃ s, run (step demoRegex {}) {} twoConnections = some s ∧ s.accepted = [5, 6] ∧
      s.tasks.map (fun t => t.phase.isEnded) = [true, true] ∧
      s.log.map (fun o => (o.task, o.fd, o.conn, o.call.isClose)) =
        [(1, some 6, some 1, false), (0, some 6, some 1, false), (0, some 6, some 1, false),
          (1, some 6, some 1, false), (0, some 6, some 1, true), (1, some 6, none, true)] :=
  ⟨_, rfl, rfl, rfl, rfl⟩

end Server

end NiceHttp
