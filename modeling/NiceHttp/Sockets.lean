/-
# The sockets of a NiceHTTP object

The calls that use the two descriptor fields of a `NiceHTTP` object (POSIX):
`request` with `client_setup`, `start` with `server_setup`, and `cleanup`,
which is also the destructor. A call takes what the system answers during it
(`Peer`, `Host`); the connections that the loop of `start` accepts are not
here, they do not go through the fields.

A field is nothing for -1. A descriptor in a field goes with the number of the
`socket` call that returned it (`Socket.sock`); no code reads the number, it
tells the socket from a later one with the same descriptor. `names` of the
table is what the kernel has open.

Key definitions: `NiceHTTP`, `NiceHTTP.cleanup`, `NiceHTTP.request`,
`NiceHTTP.start`, `NiceHTTP.step`, `NiceHTTP.Next`.
Key theorems: `NiceHTTP.next_of_step`.
-/
import NiceHttp.Recv
import NiceHttp.Request
import NiceHttp.Response
import NiceHttp.Lib.Run
import NiceHttp.Lib.Handles

namespace NiceHttp

open CString

/-- A descriptor, and the number of the `socket` call that returned it. -/
structure Socket where
  fd : ℕ
  sock : ℕ

/-- The descriptor fields, the kernel's table, and what was sent on which socket. -/
structure NiceHTTP where
  table : Handles.Table ℕ := {}
  serverSocket : Option Socket := none
  clientSocket : Option Socket := none
  sent : List (Option ℕ × Str) := []

/-- The system during a `request`: the results of `socket`, `gethostbyname`
(an address of family `AF_INET`), `connect` and `recv`. -/
structure Peer where
  socket : Option ℕ
  resolve : Str → Option (Vector UInt8 4)
  connect : Str → Int16 → Bool
  received : List RecvResult

/-- The system during a `start`: the results of `socket`, `bind` and `listen`. -/
structure Host where
  socket : Option ℕ
  bind : Str → Int16 → Bool
  listen : Bool

/-- A call of a method, and the system during it. -/
inductive Call where
  | request (req : Request) (host : Str) (port : Int16) (code₀ : Int16) (p : Peer)
  | start (iface : Str) (port : Int16) (h : Host)

def Call.isRequest : Call → Bool
  | request .. => true
  | start .. => false

/-- `NiceHTTP::is_ipaddr`. -/
def isIpaddr (host : Str) : Bool := host.all fun c => isdigit c || c = ch '.'

/-- The text of the address: every number with a dot, and the last dot erased. -/
def ipText (addr : Vector UInt8 4) : Str :=
  (addr.toList.flatMap fun b => decimal b.toNat ++ str ".").dropLast

/-- The address that `client_setup` connects to. -/
def Peer.address (p : Peer) (host : Str) : Option Str :=
  if isIpaddr host then some host else (p.resolve host).map ipText

namespace NiceHTTP

/-- The first half of `cleanup`. -/
def closeServer (s : NiceHTTP) : NiceHTTP :=
  match s.serverSocket with
  | some h => { s with table := s.table.release h.fd, serverSocket := none }
  | none => s

/-- The second half of `cleanup`. -/
def closeClient (s : NiceHTTP) : NiceHTTP :=
  match s.clientSocket with
  | some h => { s with table := s.table.release h.fd, clientSocket := none }
  | none => s

/-- `NiceHTTP::cleanup`, and `~NiceHTTP`. -/
def cleanup (s : NiceHTTP) : NiceHTTP := s.closeServer.closeClient

/-- A new socket is in the client field. -/
def opened (s : NiceHTTP) (fd : ℕ) (table : Handles.Table ℕ) : NiceHTTP :=
  { s with table := table, clientSocket := some ⟨fd, s.table.issued⟩ }

/-- A new socket is in the server field. -/
def bound (s : NiceHTTP) (fd : ℕ) (table : Handles.Table ℕ) : NiceHTTP :=
  { s with table := table, serverSocket := some ⟨fd, s.table.issued⟩ }

/-- A `send` on the descriptor. -/
def send (s : NiceHTTP) (fd : ℕ) (raw : Str) : NiceHTTP :=
  { s with sent := s.sent ++ [(s.table.names fd, raw)] }

/-- `NiceHTTP::client_setup`. -/
def clientSetup (s : NiceHTTP) (host : Str) (port : Int16) (p : Peer) : Option (NiceHTTP × Bool) :=
  match p.socket with
  | none => some ({ s with clientSocket := none }, false)
  | some fd =>
    (s.table.acquire fd).map fun table =>
      match p.address host with
      | none => (s.opened fd table, false)
      | some ip =>
        if p.connect ip port then (s.opened fd table, true) else ((s.opened fd table).cleanup, false)

/-- `NiceHTTP::request`; nothing while it is waiting in `recv`. -/
def request (s : NiceHTTP) (req : Request) (host : Str) (port : Int16) (code₀ : Int16) (p : Peer) :
    Option (NiceHTTP × Except Exn Response) :=
  match s.clientSetup host port p with
  | none => none
  | some (s, ok) =>
    match ok, s.clientSocket with
    | true, some h =>
      let s := s.send h.fd req.toString
      match recvHttp p.received with
      | none => none
      | some ((resp, body), _) =>
        match Response.ofHeadBody code₀ resp body with
        | .error e => some (s, .error e)
        | .ok (r, _) => some ({ s with table := s.table.release h.fd }, .ok r) -- the field stays
    | _, _ => some (s, .error (.runtimeError (str "Cannot connect to server")))

/-- `NiceHTTP::server_setup`. -/
def serverSetup (s : NiceHTTP) (iface : Str) (port : Int16) (h : Host) : Option (NiceHTTP × Bool) :=
  match h.socket with
  | none => some ({ s with serverSocket := none }, false)
  | some fd =>
    (s.table.acquire fd).map fun table =>
      if h.bind iface port then (s.bound fd table, true) else ((s.bound fd table).cleanup, false)

/-- `NiceHTTP::start`; its loop leaves the fields alone. -/
def start (s : NiceHTTP) (iface : Str) (port : Int16) (h : Host) : Option NiceHTTP :=
  match s.serverSetup iface port h with
  | none => none
  | some (s, ok) =>
    match ok, s.serverSocket with
    | true, some _ => some (if h.listen then s else s.cleanup)
    | _, _ => some s

/-- The object after a call. -/
def step (s : NiceHTTP) : Call → Option NiceHTTP
  | .request req host port code₀ p => (s.request req host port code₀ p).map Prod.fst
  | .start iface port h => s.start iface port h

/-! ### What a call can do -/

/-- The calls, one case for each way out. -/
inductive Next (s : NiceHTTP) : Call → NiceHTTP → Prop where
  | noSocket {req host port code₀ p} (h : p.socket = none) :
      Next s (.request req host port code₀ p) { s with clientSocket := none }
  | unresolved {req host port code₀ p fd table} (h : p.socket = some fd) :
      s.table.acquire fd = some table → p.address host = none →
      Next s (.request req host port code₀ p) (s.opened fd table)
  | refused {req host port code₀ p fd table ip} (h : p.socket = some fd) :
      s.table.acquire fd = some table → p.address host = some ip → p.connect ip port = false →
      Next s (.request req host port code₀ p) (s.opened fd table).cleanup
  | threw {req host port code₀ p fd table ip} (h : p.socket = some fd) :
      s.table.acquire fd = some table → p.address host = some ip → p.connect ip port = true →
      Next s (.request req host port code₀ p) ((s.opened fd table).send fd req.toString)
  | answered {req host port code₀ p fd table ip} (h : p.socket = some fd) :
      s.table.acquire fd = some table → p.address host = some ip → p.connect ip port = true →
      Next s (.request req host port code₀ p)
        { (s.opened fd table).send fd req.toString with table := table.release fd }
  | noServer {iface port host} (h : host.socket = none) :
      Next s (.start iface port host) { s with serverSocket := none }
  | failed {iface port host fd table} (h : host.socket = some fd) :
      s.table.acquire fd = some table → (host.bind iface port && host.listen) = false →
      Next s (.start iface port host) (s.bound fd table).cleanup
  | served {iface port host fd table} (h : host.socket = some fd) :
      s.table.acquire fd = some table → (host.bind iface port && host.listen) = true →
      Next s (.start iface port host) (s.bound fd table)

variable {s s' : NiceHTTP} {c : Call}

theorem next_of_request {req : Request} {host : Str} {port code₀ : Int16} {p : Peer} {r : Except Exn Response}
    (h : s.request req host port code₀ p = some (s', r)) : Next s (.request req host port code₀ p) s' := by
  unfold request clientSetup at h
  cases hsock : p.socket with
  | none =>
    simp only [hsock] at h
    cases h
    exact .noSocket hsock
  | some fd =>
    cases hacq : s.table.acquire fd with
    | none => simp [hsock, hacq] at h
    | some table =>
      cases haddr : p.address host with
      | none =>
        simp only [hsock, hacq, haddr, Option.map_some] at h
        cases h
        exact .unresolved hsock hacq haddr
      | some ip =>
        cases hconn : p.connect ip port with
        | false =>
          simp only [hsock, hacq, haddr, hconn, Option.map_some, Bool.false_eq_true, if_false] at h
          cases h
          exact .refused hsock hacq haddr hconn
        | true =>
          simp only [hsock, hacq, haddr, hconn, Option.map_some, if_true, opened] at h
          cases hrecv : recvHttp p.received with
          | none => simp [hrecv] at h
          | some res =>
            simp only [hrecv] at h
            split at h
            · cases h
              exact .threw hsock hacq haddr hconn
            · cases h
              exact .answered hsock hacq haddr hconn

theorem next_of_start {iface : Str} {port : Int16} {host : Host} (h : s.start iface port host = some s') :
    Next s (.start iface port host) s' := by
  unfold start serverSetup at h
  cases hsock : host.socket with
  | none =>
    simp only [hsock] at h
    cases h
    exact .noServer hsock
  | some fd =>
    cases hacq : s.table.acquire fd with
    | none => simp [hsock, hacq] at h
    | some table =>
      cases hbind : host.bind iface port with
      | false =>
        simp only [hsock, hacq, hbind, Option.map_some, Bool.false_eq_true, if_false] at h
        cases h
        exact .failed hsock hacq (by rw [hbind, Bool.false_and])
      | true =>
        simp only [hsock, hacq, hbind, Option.map_some, if_true, bound] at h
        cases hlisten : host.listen with
        | false =>
          simp only [hlisten, Bool.false_eq_true, if_false] at h
          cases h
          exact .failed hsock hacq (by rw [hlisten, Bool.and_false])
        | true =>
          simp only [hlisten, if_true] at h
          cases h
          exact .served hsock hacq (by rw [hbind, hlisten, Bool.and_self])

/-- **Every call is one of the cases.** -/
theorem next_of_step (h : step s c = some s') : Next s c s' := by
  cases c with
  | request req host port code₀ p =>
    obtain ⟨⟨t, r⟩, hreq, rfl⟩ := Option.map_eq_some_iff.mp h
    exact next_of_request hreq
  | start iface port host => exact next_of_start h

end NiceHTTP

end NiceHttp
