/-
# The accept loop and its tasks

`NiceHTTP::start`, from the first `poll` on, with the tasks that it enqueues.
The loop and the tasks take their steps in any order: a turn of the loop is a
`poll`, an `accept` and the enqueueing, a task takes a step for each `recv`,
`send` and `close` of `parsereq`. The pool runs every enqueued task once.

The lambda that is enqueued holds a reference to `client_socket`, a variable
of the loop, and `parsereq` and `recv_http` hand the reference on: so every
system call of every task uses the value that the variable has at that time
(`Server.act`). `Task.fd` is the value at the enqueueing. No code reads it; it
is there to say what the call should have used. After the loop the variable is
out of scope, and a task that reads it is undefined: it gets no descriptor.

The connections are numbered in the order of their `accept`, and `table` is
the kernel's table of the descriptors that are open for them.

Key definitions: `Task`, `Server`, `Server.step`, `Server.Next`.
Key theorems: `Server.next_of_step`.
-/
import NiceHttp.Parsereq
import NiceHttp.Lib.Run
import NiceHttp.Lib.Handles

namespace NiceHttp

open CString

/-- Where a task is in `parsereq`. -/
inductive Phase where
  | receiving (r : Recv)
  | sending (raw : Str)
  | closing
  | ended (result : Except Exn Unit)

def Phase.isEnded : Phase → Bool
  | ended _ => true
  | _ => false

/-- An enqueued call of `parsereq`. -/
structure Task where
  fd : ℤ
  phase : Phase := .receiving {}

/-- A system call of a task: the descriptor it used, and the connection that
the descriptor was open for. -/
structure Op where
  task : ℕ
  call : Syscall
  fd : Option ℤ
  conn : Option ℕ

/-- Where the loop is: in `poll`, in `accept`, between `accept` and the
enqueueing, or out. -/
inductive Loop where
  | polling
  | accepting
  | accepted
  | left
  deriving DecidableEq

structure Server where
  loop : Loop := .polling
  clientSocket : Option ℤ := none
  tasks : List Task := []
  accepted : List ℤ := []
  table : Handles.Table ℤ := {}
  log : List Op := []

/-- A step of the loop, with what the call returned, or of a task. -/
inductive Step where
  | poll (rc : ℤ)
  | accept (fd : ℤ)
  | enqueue
  | recv (task : ℕ) (n : RecvResult)
  | send (task : ℕ)
  | close (task : ℕ)

namespace Server

/-- The connection that `client_socket` is open for. -/
def conn (s : Server) : Option ℕ := s.clientSocket.bind s.table.names

/-- What a `recv` returns: an error if the descriptor is not open. -/
def delivered (s : Server) (n : RecvResult) : RecvResult := if s.conn = none then .error else n

/-- A system call of task `k`, and what the task does next. -/
def act (s : Server) (k : ℕ) (t : Task) (phase : Phase) (call : Syscall) : Server :=
  { s with
    tasks := s.tasks.set k { t with phase := phase }
    log := s.log ++ [{ task := k, call := call, fd := s.clientSocket, conn := s.conn }] }

/-- The table after a `close` of `client_socket`. -/
def closed (s : Server) : Handles.Table ℤ :=
  match s.clientSocket with
  | some fd => s.table.release fd
  | none => s.table

variable (regex : Regex) (router : Router)

/-- What a task does after a turn of `recv_http`. -/
def afterTurn : Turn → Phase
  | .again r => .receiving r
  | .done head body =>
    match (respond regex router head body).2 with
    | .error e => .ended (.error e)
    | .ok raw => .sending raw

/-- A step, if the loop or the task is at that call. A new descriptor is one
that is not open. -/
def step (s : Server) : Step → Option Server
  | .poll rc =>
    if s.loop ≠ .polling then none
    else if rc > 0 then some { s with loop := .accepting }
    else some { s with loop := .left, clientSocket := none }
  | .accept fd =>
    if s.loop ≠ .accepting then none
    else if fd = -1 then some { s with loop := .accepted, clientSocket := some (-1) }
    else if fd < 0 then none
    else
      (s.table.acquire fd).map fun table =>
        { s with loop := .accepted, clientSocket := some fd, accepted := s.accepted ++ [fd], table := table }
  | .enqueue =>
    match s.loop, s.clientSocket with
    | .accepted, some fd =>
      if fd > 0 then some { s with loop := .polling, tasks := s.tasks ++ [{ fd := fd }] }
      else some { s with loop := .polling }
    | _, _ => none
  | .recv k n =>
    match s.tasks[k]? with
    | some ⟨fd, .receiving r⟩ =>
      let n := s.delivered n
      some (s.act k ⟨fd, .receiving r⟩ (afterTurn regex router (r.turn n)) (.recv n))
    | _ => none
  | .send k =>
    match s.tasks[k]? with
    | some ⟨fd, .sending raw⟩ => some (s.act k ⟨fd, .sending raw⟩ .closing (.send raw))
    | _ => none
  | .close k =>
    match s.tasks[k]? with
    | some ⟨fd, .closing⟩ =>
      some { s.act k ⟨fd, .closing⟩ (.ended (.ok ())) .close with table := s.closed }
    | _ => none

/-- The tasks keep their descriptors. -/
theorem fds_act {s : Server} {k : ℕ} {t : Task} (hk : s.tasks[k]? = some t) (phase : Phase) (call : Syscall) :
    (s.act k t phase call).tasks.map Task.fd = s.tasks.map Task.fd := by
  obtain ⟨hlt, hget⟩ := List.getElem?_eq_some_iff.mp hk
  have hlt' : k < (s.tasks.map Task.fd).length := by simpa using hlt
  have hfd : t.fd = (s.tasks.map Task.fd)[k] := by rw [List.getElem_map, hget]
  simp only [act, List.map_set]
  rw [hfd, List.set_getElem_self]

/-! ### What a step can do -/

/-- The steps, one case for each branch. -/
inductive Next (s : Server) : Step → Server → Prop where
  | ready {rc : ℤ} (h : s.loop = .polling) : 0 < rc → Next s (.poll rc) { s with loop := .accepting }
  | leave {rc : ℤ} (h : s.loop = .polling) : ¬ 0 < rc →
      Next s (.poll rc) { s with loop := .left, clientSocket := none }
  | refused (h : s.loop = .accepting) :
      Next s (.accept (-1)) { s with loop := .accepted, clientSocket := some (-1) }
  | connected {fd : ℤ} {table : Handles.Table ℤ} (h : s.loop = .accepting) : 0 ≤ fd →
      s.table.acquire fd = some table →
      Next s (.accept fd)
        { s with loop := .accepted, clientSocket := some fd, accepted := s.accepted ++ [fd], table := table }
  | enqueue {fd : ℤ} (h : s.loop = .accepted) : s.clientSocket = some fd → 0 < fd →
      Next s .enqueue { s with loop := .polling, tasks := s.tasks ++ [{ fd := fd }] }
  | skip {fd : ℤ} (h : s.loop = .accepted) : s.clientSocket = some fd → ¬ 0 < fd →
      Next s .enqueue { s with loop := .polling }
  | recv {k : ℕ} {n : RecvResult} {fd : ℤ} {r : Recv} (h : s.tasks[k]? = some ⟨fd, .receiving r⟩) :
      Next s (.recv k n) (s.act k ⟨fd, .receiving r⟩ (afterTurn regex router (r.turn (s.delivered n)))
        (.recv (s.delivered n)))
  | send {k : ℕ} {fd : ℤ} {raw : Str} (h : s.tasks[k]? = some ⟨fd, .sending raw⟩) :
      Next s (.send k) (s.act k ⟨fd, .sending raw⟩ .closing (.send raw))
  | close {k : ℕ} {fd : ℤ} (h : s.tasks[k]? = some ⟨fd, .closing⟩) :
      Next s (.close k) { s.act k ⟨fd, .closing⟩ (.ended (.ok ())) .close with table := s.closed }

variable {regex router} {s s' : Server} {l : Step}

/-- **Every step is one of the cases.** -/
theorem next_of_step (h : step regex router s l = some s') : Next regex router s l s' := by
  cases l with
  | poll rc =>
    simp only [step] at h
    split at h
    · cases h
    · rename_i hloop
      rw [not_not] at hloop
      split at h
      · cases h
        exact .ready hloop ‹_›
      · cases h
        exact .leave hloop ‹_›
  | accept fd =>
    simp only [step] at h
    split at h
    · cases h
    · rename_i hloop
      rw [not_not] at hloop
      split at h
      · rename_i hfd
        cases h
        subst hfd
        exact .refused hloop
      · split at h
        · cases h
        · rename_i hfd
          obtain ⟨table, htable, rfl⟩ := Option.map_eq_some_iff.mp h
          exact .connected hloop (not_lt.mp hfd) htable
  | enqueue =>
    simp only [step] at h
    split at h
    · rename_i fd hloop hclient
      split at h
      · cases h
        exact .enqueue hloop hclient ‹_›
      · cases h
        exact .skip hloop hclient ‹_›
    · cases h
  | recv k n =>
    simp only [step] at h
    split at h
    · cases h
      exact .recv ‹_›
    · cases h
  | send k =>
    simp only [step] at h
    split at h
    · cases h
      exact .send ‹_›
    · cases h
  | close k =>
    simp only [step] at h
    split at h
    · cases h
      exact .close ‹_›
    · cases h

end Server

end NiceHttp
