/-
# A call over the network

A client calls `request`, the server's task is in `parsereq`, and each gets
the other's text in some packets (`Delivers`). For a request and an answer that
can be told from their texts, the call over the network is the call of the
router: the callbacks see the request as the client made it, with its header
names in lower case, and the client gets the callback's answer with the
server's headers, likewise (`remote_call`). A route with a token is open to
the clients whose request has the token, and the others get the 401
(`remote_token`). A host name stands for the text of its address
(`request_by_name`).

With many clients, in every run that leaves `client_socket` alone until all
tasks have ended, each connection carries the answer to its own request
(`answers_own_request`).

Key definitions: `Delivers`, `Answerable`, `NiceHTTP.Reaches`,
`Server.received`.
Key theorems: `parsereq_of_delivers`, `remote_call`, `answers_own_request`.
-/
import NiceHttp.Serving
import NiceHttp.Sockets
import NiceHttp.RoundTrip
import NiceHttp.Cut

namespace NiceHttp

open CString Text Run

/-! ### The way of a text -/

/-- The results of `recv` bring the text: the loop asks for all of them, no
byte is NUL, and the first empty line is in one block with the byte behind it. -/
structure Delivers (ns : List RecvResult) (text : Str) : Prop where
  bytes : bytesOf (chunksOf ns) = text
  noNul : 0 ∉ text
  ends : ∃ r, recvHttp ns = some (r, [])
  whole : ∀ p, find (str "\r\n\r\n") text = some p →
    p + 4 = text.length ∨ p / pktBlockSize = (p + 4) / pktBlockSize

/-- **A text that is delivered is cut as it was meant.** -/
theorem Delivers.recv {ns : List RecvResult} {text head body : Str} (h : Delivers ns text)
    (hcut : cut text = some (head, body)) : recvHttp ns = some ((head, body), []) := by
  obtain ⟨r, hr⟩ := h.ends
  obtain ⟨hfold, hblocks⟩ := recvHttp_consumed hr (by rw [h.bytes]; exact h.noNul)
  have htext : (textsOf ns).flatten = text := h.bytes
  obtain ⟨p, hp, -⟩ := Option.map_eq_some_iff.mp hcut
  have hwhole := (foldl_append_eq_cut hblocks (by rw [htext]; exact hp)).mpr (by rw [htext]; exact h.whole p hp)
  rw [htext, hcut, ← hfold] at hwhole
  rw [hr, ← Option.some.inj hwhole]

/-- A short text in one packet is delivered. -/
theorem delivers_packet (c : Chunk) (hc : 0 ∉ c.bytes) (hs : c.bytes.length < pktBlockSize) :
    Delivers [.data c] c.bytes where
  bytes := List.flatten_singleton
  noNul := hc
  ends := ⟨_, recvHttp_packet c hc hs []⟩
  whole p hp := by
    have hle : p + 4 ≤ c.bytes.length := (find_le hp).resolve_right nofun
    right
    rw [Nat.div_eq_of_lt (by omega), Nat.div_eq_of_lt (by omega)]

/-! ### The server's side -/

/-- The request as it comes out of its text. -/
def Request.lowered (q : Request) : Request := { q with headers := q.headers.lowerNames }

/-- The response as it comes out of its text. -/
def Response.lowered (r : Response) : Response := { r with headers := r.headers.lowerNames }

/-- A request that can be told from its text. -/
structure Request.Sendable (q : Request) : Prop where
  method : Plain q.method
  uri : Plain q.uri
  proto : Plain q.proto
  message : q.Encodable

/-- A response that can be told from its text, with the server's headers. -/
structure Answerable (r : Response) : Prop where
  proto : Plain r.proto
  message : NoEol r.message
  spaces : r.message.count (ch ' ') ≤ 65533
  headers : r.serverHeaders.Encodable

theorem Request.Sendable.read {q : Request} (hq : q.Sendable) :
    ∃ head body out, cut q.toString = some (head, body) ∧ ofHeadBody head body = .ok (q.lowered, out) := by
  obtain ⟨head, hcut, out, hread⟩ := Request.read_print hq.method.1 hq.uri.1 hq.proto.1
    (free_join (free_join hq.method.2.free hq.uri.2.free) hq.proto.2.free) hq.message.wire hq.message.bodyFits
  rw [hq.message.onWire] at hread
  exact ⟨head, _, out, hcut, hread⟩

theorem Answerable.read {r : Response} (hr : Answerable r) (code₀ : Int16) :
    ∃ head body out, cut r.serverHeaders.toString = some (head, body) ∧
      Response.ofHeadBody code₀ head body = .ok (r.serverHeaders.lowered, out) := by
  have hcode : Free 13 10 (printInt r.code.toInt) := free_of_notMem_left (notMem_printInt (by decide))
  obtain ⟨head, hcut, out, hread⟩ := Response.read_print (p := r.serverHeaders) hr.proto.1 hr.spaces
    (free_join (free_join hr.proto.2.free hcode) hr.message.free) hr.headers.wire hr.headers.bodyFits code₀
  rw [hr.headers.onWire] at hread
  exact ⟨head, _, out, hcut, hread⟩

section Server

variable {regex : Regex} {router : Router}

/-- What `parsereq` does on a text that is delivered. -/
theorem parsereq_of_recv {ns : List RecvResult} {head body : Str} {req : Request} {out : List Str}
    (hrecv : recvHttp ns = some ((head, body), [])) (hread : Request.ofHeadBody head body = .ok (req, out)) :
    parsereq regex router ns = some (served ns (router.handle regex req)) := by
  unfold parsereq
  simp only [hrecv, respond, hread, List.length_nil, Nat.sub_zero, List.take_length]
  unfold served
  cases (router.handle regex req).result with
  | error e => rfl
  | ok resp => rfl

theorem parsereq_of_delivers {q : Request} (hq : q.Sendable) {ns : List RecvResult} (h : Delivers ns q.toString) :
    parsereq regex router ns = some (served ns (router.handle regex q.lowered)) := by
  obtain ⟨head, body, out, hcut, hread⟩ := hq.read
  exact parsereq_of_recv (h.recv hcut) hread

end Server

/-! ### The client's side -/

namespace NiceHTTP

/-- A call of `request` has a socket, and the peer accepts. -/
def Reaches (s : NiceHTTP) (host : Str) (port : Int16) (p : Peer) : Prop :=
  ∃ fd table ip, p.socket = some fd ∧ s.table.acquire fd = some table ∧ p.address host = some ip ∧
    p.connect ip port = true

/-- What `request` returns when a response has come, and what it sent. -/
theorem request_answered {s : NiceHTTP} {q : Request} {host : Str} {port code₀ : Int16} {p : Peer}
    (h : s.Reaches host port p) {head body : Str} {rest : List RecvResult} {r : Response} {out : List Str}
    (hrecv : recvHttp p.received = some ((head, body), rest))
    (hread : Response.ofHeadBody code₀ head body = .ok (r, out)) :
    ∃ s', s.request q host port code₀ p = some (s', .ok r) ∧
      s'.sent = s.sent ++ [(some s.table.issued, q.toString)] := by
  obtain ⟨fd, table, ip, hsock, hacq, haddr, hconn⟩ := h
  refine ⟨{ (s.opened fd table).send fd q.toString with table := table.release fd }, ?_, ?_⟩
  · unfold request clientSetup
    simp only [hsock, hacq, Option.map_some, haddr, hconn, if_true, opened, hrecv, hread]
    rfl
  · have hname : table.names fd = some s.table.issued := by
      rw [Handles.Table.acquire_names hacq, if_pos rfl]
    show s.sent ++ [(table.names fd, q.toString)] = s.sent ++ [(some s.table.issued, q.toString)]
    rw [hname]

end NiceHTTP

/-! ### Both sides -/

/-- What is sent is the text of the answer, if there is one. -/
theorem send_mem_served {received : List RecvResult} {h : Handled} {raw : Str} :
    .send raw ∈ (served received h).syscalls ↔
      ∃ resp, h.result = .ok resp ∧ raw = resp.serverHeaders.toString := by
  unfold served
  cases h.result with
  | error e => simp
  | ok resp => simp

section Remote

variable {regex : Regex} {router : Router} {q : Request} {ns : List RecvResult}

/-- **A call over the network is a call of the router.** The server's task
hands the client's request to the router, with its header names in lower case,
and what the router answers is what the client gets, with the server's headers. -/
theorem remote_call (hq : q.Sendable) (hns : Delivers ns q.toString) :
    ∃ o, parsereq regex router ns = some o ∧ o.calls = (router.handle regex q.lowered).calls ∧
      (∀ raw, .send raw ∈ o.syscalls ↔
        ∃ resp, (router.handle regex q.lowered).result = .ok resp ∧ raw = resp.serverHeaders.toString) ∧
      ∀ resp raw, (router.handle regex q.lowered).result = .ok resp → Answerable resp → .send raw ∈ o.syscalls →
        ∀ (c : NiceHTTP) (host : Str) (port code₀ : Int16) (p : Peer), c.Reaches host port p →
          Delivers p.received raw →
          ∃ c', c.request q host port code₀ p = some (c', .ok resp.serverHeaders.lowered) ∧
            c'.sent = c.sent ++ [(some c.table.issued, q.toString)] := by
  refine ⟨_, parsereq_of_delivers hq hns, served_calls _ _, fun raw => send_mem_served, ?_⟩
  intro resp raw hresult hresp hraw c host port code₀ p hc hp
  obtain ⟨resp', hresult', rfl⟩ := send_mem_served.mp hraw
  obtain rfl := Except.ok.inj (hresult.symm.trans hresult')
  obtain ⟨head, body, out, hcut, hread⟩ := hresp.read code₀
  exact NiceHTTP.request_answered hc (hp.recv hcut) hread

/-- The request has the token, under the name in any case. -/
def HasToken (q : Request) (token : Str) : Prop :=
  ∃ n, (n, token) ∈ q.headers ∧ n.map tolower = str "authorization"

theorem answerable_unauthorized : Answerable Route.unauthorized :=
  ⟨⟨by decide, by decide, by decide⟩, ⟨by decide, by decide⟩, by decide,
    ⟨by decide, by decide, by decide, by decide, by decide, by decide, by decide⟩⟩

/-- **The token over the network.** If the router selects a route with a token,
its callback is invoked for the clients whose request has the token; the others
get the 401, and no callback is invoked. -/
theorem remote_token (hq : q.Sendable) (hns : Delivers ns q.toString) {r : Route}
    (hr : Selected regex router q.lowered r) (ha : r.auth.chars ≠ []) :
    ∃ o, parsereq regex router ns = some o ∧
      (HasToken q r.auth.chars → o.calls = [(r, q.lowered)]) ∧
      (¬ HasToken q r.auth.chars → o.calls = [] ∧ ∃ raw, .send raw ∈ o.syscalls ∧
        ∀ (c : NiceHTTP) (host : Str) (port code₀ : Int16) (p : Peer), c.Reaches host port p →
          Delivers p.received raw →
          ∃ c' resp, c.request q host port code₀ p = some (c', .ok resp) ∧ resp.code = 401) := by
  have hadmits : Admits r q.lowered ↔ HasToken q r.auth.chars := by
    rw [Admits, or_iff_right ha]
    exact mem_lowerNames hq.message.distinct _ _
  have hhandle : router.handle regex q.lowered = r.handle q.lowered := by
    rw [Router.handle, find_eq_some.mpr hr]
  refine ⟨_, parsereq_of_delivers hq hns, fun ht => ?_, fun ht => ?_⟩
  · rw [served_calls, hhandle, Route.handle_admits (hadmits.mpr ht)]
  · have hdenied := Route.handle_denied fun h => ht (hadmits.mp h)
    refine ⟨by rw [served_calls, hhandle, hdenied], Route.unauthorized.serverHeaders.toString, ?_, ?_⟩
    · rw [send_mem_served, hhandle, hdenied]
      exact ⟨_, rfl, rfl⟩
    · intro c host port code₀ p hc hp
      obtain ⟨head, body, out, hcut, hread⟩ := answerable_unauthorized.read code₀
      obtain ⟨c', hrequest, -⟩ := NiceHTTP.request_answered (q := q) hc (hp.recv hcut) hread
      exact ⟨c', _, hrequest, rfl⟩

end Remote

/-! ### The demo -/

/-- The request of the demo client. -/
def demoRequest : Request where
  method := str "GET"
  uri := str "/test/2"
  proto := protoHttp1
  headers := (∅ : Headers).insert (str "Authorization", str "apptoken123")

/-- The answer of the demo route. -/
def demoResponse : Response where
  code := 200
  message := str "OK"
  proto := protoHttp1
  isJson := true
  contentLength := 16
  body := str "\x7b\"status\": \"OK\"\x7d"

theorem demoRequest_sendable : demoRequest.Sendable :=
  ⟨⟨by decide, by decide, by decide⟩, ⟨by decide, by decide, by decide⟩, ⟨by decide, by decide, by decide⟩,
    ⟨by decide, by decide, by decide, by decide, by decide, by decide, by decide⟩⟩

theorem demoResponse_answerable : Answerable demoResponse :=
  ⟨⟨by decide, by decide, by decide⟩, ⟨by decide, by decide⟩, by decide,
    ⟨by decide, by decide, by decide, by decide, by decide, by decide, fun _ => List.cons_ne_nil _ _⟩⟩

/-- The two texts, in one packet each. -/
def demoPacket : Chunk := ⟨str "GET /test/2 HTTP/1.1\r\nAuthorization: apptoken123\r\n\r\n", by decide, by decide⟩

def answerPacket : Chunk where
  bytes := str "HTTP/1.1 200 OK\r\nConnection: close\r\nServer: NiceHTTP\r\nContent-Length: 16\r\n" ++
    str "Content-Type: application/json\r\n\r\n\x7b\"status\": \"OK\"\x7d"
  pos := by decide +kernel
  le := by decide +kernel

theorem demo_delivered : Delivers [.data demoPacket] demoRequest.toString :=
  delivers_packet demoPacket (by decide) (by decide)

theorem answer_delivered : Delivers [.data answerPacket] demoResponse.serverHeaders.toString :=
  delivers_packet answerPacket (by decide +kernel) (by decide +kernel)

/-- A peer that has the address and accepts, and answers with the packet. -/
def demoPeer : Peer where
  socket := some 5
  resolve := fun _ => some ⟨#[127, 0, 0, 1], rfl⟩
  connect := fun _ _ => true
  received := [.data answerPacket]

theorem remote_call_demo :
    ∃ o, parsereq demoRegex (Router.add {} demoRoute) [.data demoPacket] = some o ∧
      o.calls = [(demoRoute, demoRequest.lowered)] ∧
      ∃ c', ({} : NiceHTTP).request demoRequest (str "localhost") 8090 0 demoPeer =
          some (c', .ok demoResponse.serverHeaders.lowered) ∧
        c'.sent = [(some 0, demoRequest.toString)] := by
  obtain ⟨o, ho, hcalls, hsent, hclient⟩ :=
    @remote_call demoRegex (Router.add {} demoRoute) _ _ demoRequest_sendable demo_delivered
  exact ⟨o, ho, hcalls, hclient demoResponse _ rfl demoResponse_answerable ((hsent _).mpr ⟨demoResponse, rfl, rfl⟩)
    {} (str "localhost") 8090 0 demoPeer ⟨5, _, _, rfl, rfl, rfl, rfl⟩ answer_delivered⟩

theorem remote_token_demo :
    ∃ o, parsereq demoRegex (Router.add {} demoRoute) [.data demoPacket] = some o ∧
      o.calls = [(demoRoute, demoRequest.lowered)] := by
  have hselected : Selected demoRegex (Router.add {} demoRoute) demoRequest.lowered demoRoute :=
    find_eq_some.mp rfl
  obtain ⟨o, ho, hcalls, -⟩ := remote_token demoRequest_sendable demo_delivered hselected (by decide)
  have hmem : (str "Authorization", demoRoute.auth.chars) ∈ demoRequest.headers :=
    SortedSet.mem_insert.mpr (Or.inr ⟨rfl, fun _ hb => absurd hb (SortedSet.notMem_empty _)⟩)
  exact ⟨o, ho, hcalls ⟨str "Authorization", hmem, by decide⟩⟩

/-! ### The peer by its name -/

/-- Words with a separator each, the last one erased. -/
theorem dropLast_flatMap {α : Type*} (d : α) : ∀ ws : List (List α),
    (ws.flatMap (· ++ [d])).dropLast = [d].intercalate ws
  | [] => rfl
  | [w] => by simp
  | w :: w' :: ws => by
    have hne : (w' :: ws).flatMap (· ++ [d]) ≠ [] := by simp
    rw [List.flatMap_cons, List.dropLast_append_of_ne_nil hne, dropLast_flatMap d (w' :: ws),
      List.intercalate_cons_cons]

/-- The text of an address is its four numbers with dots between them. -/
theorem splitOn_ipText (a : Vector UInt8 4) : (ipText a).splitOn (ch '.') = a.toList.map fun b => decimal b.toNat := by
  have htext : ipText a = [ch '.'].intercalate (a.toList.map fun b => decimal b.toNat) := by
    rw [← dropLast_flatMap, List.flatMap_map]
    rfl
  rw [htext, List.splitOn_intercalate]
  · intro w hw
    obtain ⟨b, -, rfl⟩ := List.mem_map.mp hw
    exact notMem_decimal (by decide)
  · refine List.ne_nil_of_length_pos ?_
    simp

theorem isIpaddr_ipText (a : Vector UInt8 4) : isIpaddr (ipText a) = true := by
  refine List.all_eq_true.mpr fun c hc => ?_
  obtain ⟨b, -, hb⟩ := List.mem_flatMap.mp (List.dropLast_subset _ hc)
  rcases List.mem_append.mp hb with hb | hb
  · obtain ⟨h1, h2⟩ := mem_decimal hb
    have hdigit : isdigit c = true := decide_eq_true ⟨UInt8.le_iff_toNat_le.mpr h1, UInt8.le_iff_toNat_le.mpr h2⟩
    rw [hdigit, Bool.true_or]
  · rw [List.mem_singleton.mp hb]
    decide

/-- **A name stands for its address.** A call by a name that is resolved is the
call by the text of its address, and the numbers of that text are the bytes of
the address. -/
theorem request_by_name {p : Peer} {host : Str} {a : Vector UInt8 4} (hname : isIpaddr host = false)
    (hres : p.resolve host = some a) :
    (∀ (c : NiceHTTP) (q : Request) (port code₀ : Int16),
        c.request q host port code₀ p = c.request q (ipText a) port code₀ p) ∧
      ((ipText a).splitOn (ch '.')).map strtoul = a.toList.map fun b => UInt64.ofNat b.toNat := by
  have haddr : p.address host = p.address (ipText a) := by
    unfold Peer.address
    rw [hname, hres, isIpaddr_ipText]
    rfl
  constructor
  · intro c q port code₀
    unfold NiceHTTP.request NiceHTTP.clientSetup
    rw [haddr]
  · rw [splitOn_ipText, List.map_map]
    refine List.map_congr_left fun b _ => strtoul_decimal ?_
    exact b.toNat_lt.trans (by decide)

theorem request_by_name_demo :
    ({} : NiceHTTP).request demoRequest (str "localhost") 8090 0 demoPeer =
      ({} : NiceHTTP).request demoRequest (str "127.0.0.1") 8090 0 demoPeer := by
  have hname : isIpaddr (str "localhost") = false := by decide
  have hres : demoPeer.resolve (str "localhost") = some ⟨#[127, 0, 0, 1], rfl⟩ := rfl
  have htext : ipText ⟨#[127, 0, 0, 1], rfl⟩ = str "127.0.0.1" := by decide
  have hcall := (request_by_name hname hres).1 {} demoRequest 8090 0
  rwa [htext] at hcall

/-! ### Many clients -/

/-- The loop stops in the same way if no more comes than it asks for. -/
theorem Recv.run_asked : ∀ {ns : List RecvResult} {s : Recv} {r : Str × Str} {rest : List RecvResult},
    s.run ns = some (r, rest) → ∃ asked, ns = asked ++ rest ∧ s.run asked = some (r, [])
  | [], _, _, _, h => by cases h
  | n :: ns, s, r, rest, h => by
    rw [run] at h
    cases ht : s.turn n with
    | done head body =>
      rw [ht] at h
      obtain ⟨rfl, rfl⟩ := Prod.mk.inj (Option.some.inj h)
      refine ⟨[n], rfl, ?_⟩
      rw [run, ht]
    | again s' =>
      rw [ht] at h
      obtain ⟨asked, rfl, hasked⟩ := run_asked h
      refine ⟨n :: asked, rfl, ?_⟩
      rw [run, ht]
      exact hasked

/-- **A call that ends** served the message that it received, and nothing else. -/
theorem served_asked {regex : Regex} {router : Router} {ns : List RecvResult} {o : Served}
    (h : parsereq regex router ns = some o) :
    ∃ asked head body req out, recvHttp asked = some ((head, body), []) ∧
      Request.ofHeadBody head body = .ok (req, out) ∧ o = served asked (router.handle regex req) := by
  obtain ⟨⟨⟨head, body⟩, rest⟩, hrecv⟩ : ∃ res, recvHttp ns = some res := by
    unfold parsereq at h
    cases hrecv : recvHttp ns with
    | none =>
      rw [hrecv] at h
      cases h
    | some res => exact ⟨res, rfl⟩
  obtain ⟨asked, rfl, hasked⟩ := Recv.run_asked hrecv
  obtain ⟨req, out, hread⟩ := Request.ofHeadBody_ok head body
  refine ⟨asked, head, body, req, out, hasked, hread, ?_⟩
  have hall : parsereq regex router asked = _ := parsereq_of_recv hasked hread
  unfold parsereq at h hall
  simp only [hrecv, respond, hread, List.length_append, Nat.add_sub_cancel, List.take_left] at h
  simp only [recvHttp] at hasked hall
  simp only [hasked, respond, hread, List.length_nil, Nat.sub_zero, List.take_length] at hall
  exact Option.some.inj (h.symm.trans hall)

/-- The result of a `recv`. -/
def Syscall.received : Syscall → Option RecvResult
  | .recv n => some n
  | _ => none

theorem received_served (asked : List RecvResult) (h : Handled) :
    (served asked h).syscalls.filterMap Syscall.received = asked := by
  have hmap : (asked.map Syscall.recv).filterMap Syscall.received = asked := by
    rw [List.filterMap_map]
    exact List.filterMap_some
  unfold served
  cases h.result with
  | error e => exact hmap
  | ok resp =>
    rw [List.filterMap_append, hmap]
    exact List.append_nil asked

namespace Server

/-- What task `k` has received. -/
def received (s : Server) (k : ℕ) : List RecvResult := (s.calls k).filterMap Syscall.received

variable {regex : Regex} {router : Router} {s : Server}

/-- A task that has ended served what it has received. -/
theorem Traced.served (hs : Traced regex router s) {k : ℕ} {t : Task} (hk : s.tasks[k]? = some t)
    (ht : t.phase.isEnded = true) :
    ∃ head body req out, recvHttp (s.received k) = some ((head, body), []) ∧
      Request.ofHeadBody head body = .ok (req, out) ∧
      s.calls k = (NiceHttp.served (s.received k) (router.handle regex req)).syscalls := by
  obtain ⟨ns, o, ho, hcalls⟩ := hs.ended hk ht
  obtain ⟨asked, head, body, req, out, hrecv, hread, rfl⟩ := served_asked ho
  have hasked : s.received k = asked := by rw [received, hcalls, received_served]
  rw [hasked]
  exact ⟨head, body, req, out, hrecv, hread, hcalls⟩

/-- **Each client gets the answer to its own request.** After a run whose steps
leave `client_socket` alone until all tasks have ended, if a task has ended that
received a client's request, then what happened on its connection is the
receiving of that request and the sending of the router's answer to it, and the
connection is closed; or, if the router throws, only the receiving. -/
theorem answers_own_request {steps : List Step} (hok : Always (step regex router) Undisturbed {} steps)
    (hrun : run (step regex router) {} steps = some s) {c : ℕ} {t : Task} (ht : s.tasks[c]? = some t)
    (hended : t.phase.isEnded = true) {q : Request} (hq : q.Sendable) (hns : Delivers (s.received c) q.toString) :
    (s.log.filter fun o => o.conn = some c).map Op.call =
      (NiceHttp.served (s.received c) (router.handle regex q.lowered)).syscalls := by
  have hs : Owned s := owned_of_run hok hrun
  have htraced : Traced regex router s := task_follows_parsereq hrun
  obtain ⟨head, body, req, out, hrecv, hread, hcalls⟩ := htraced.served ht hended
  obtain ⟨head', body', out', hcut, hread'⟩ := hq.read
  -- the text that was delivered is read in one way
  obtain ⟨rfl, rfl⟩ := Prod.mk.inj (Prod.mk.inj (Option.some.inj (hrecv.symm.trans (hns.recv hcut)))).1
  obtain ⟨rfl, -⟩ := Prod.mk.inj (Except.ok.inj (hread.symm.trans hread'))
  rw [hs.calls_conn, hcalls]

/-- The demo client's connection, served to its end. -/
def demoConnection : List Step := [.poll 1, .accept 5, .enqueue, .recv 0 (.data demoPacket), .send 0, .close 0]

theorem answers_own_request_demo :
    ∃ s, run (step demoRegex (Router.add {} demoRoute)) {} demoConnection = some s ∧
      (s.log.filter fun o => o.conn = some 0).map Op.call =
        [.recv (.data demoPacket), .send demoResponse.serverHeaders.toString, .close] := by
  have hturn : ({} : Recv).turn (.data demoPacket) = .done demoPacket.bytes [] := by
    rw [Recv.turn_data rfl (by decide), if_pos (by decide)]
    rfl
  obtain ⟨s, hrun, htasks, hconn, hlog⟩ :
      ∃ s, run (step demoRegex (Router.add {} demoRoute)) {} [.poll 1, .accept 5, .enqueue] = some s ∧
        s.tasks = [{ fd := 5 }] ∧ s.conn = some 0 ∧ s.log = [] := ⟨_, rfl, rfl, rfl, rfl⟩
  have hrecv : step demoRegex (Router.add {} demoRoute) s (.recv 0 (.data demoPacket)) =
      some (s.act 0 ⟨5, .receiving {}⟩ (.sending demoResponse.serverHeaders.toString) (.recv (.data demoPacket))) := by
    have hdelivered : s.delivered (.data demoPacket) = .data demoPacket := by simp [delivered, hconn]
    simp only [step, htasks, List.getElem?_cons_zero, hdelivered, hturn]
    rfl
  have hok : Always (step demoRegex (Router.add {} demoRoute)) Undisturbed {} demoConnection :=
    .cons rfl (Or.inl one_pos) (.cons rfl ⟨fun _ ht => absurd ht List.not_mem_nil, by decide⟩
      (.cons rfl trivial ⟨trivial, fun _ _ => ⟨trivial, fun _ _ => ⟨trivial, fun _ _ => trivial⟩⟩⟩))
  have hall : ∃ s', run (step demoRegex (Router.add {} demoRoute)) {} demoConnection = some s' ∧
      s'.tasks = [⟨5, .ended (.ok ())⟩] ∧ s'.received 0 = [.data demoPacket] := by
    have hsplit : demoConnection = [.poll 1, .accept 5, .enqueue] ++ [.recv 0 (.data demoPacket), .send 0, .close 0] :=
      rfl
    have hrest : ∃ s', run (step demoRegex (Router.add {} demoRoute))
        (s.act 0 ⟨5, .receiving {}⟩ (.sending demoResponse.serverHeaders.toString) (.recv (.data demoPacket)))
        [.send 0, .close 0] = some s' ∧ s'.tasks = [⟨5, .ended (.ok ())⟩] ∧ s'.received 0 = [.data demoPacket] := by
      simp [run, step, act, htasks, received, calls, hlog, Syscall.received]
    rw [hsplit, run_append, hrun, Option.bind_some, run_cons, hrecv]
    exact hrest
  obtain ⟨s', hrun', htasks', hreceived⟩ := hall
  have hanswer := answers_own_request hok hrun' (c := 0) (by rw [htasks']; rfl) rfl demoRequest_sendable
    (by rw [hreceived]; exact demo_delivered)
  rw [hreceived] at hanswer
  exact ⟨s', hrun', hanswer⟩

end Server

end NiceHttp
