/-
# Serving one connection

`NiceHTTP::parsereq`: receive, build the request, ask the router, send the
answer, close. The pool runs it as a task and drops whatever it throws
(`enqueue_detach`), so a call is described by the system calls it made on its
descriptor, the callbacks it invoked and how it ended (`Served`).

Nothing in `parsereq` catches: an invalid pattern or a throwing callback skips
the `send` and the `close` (`served_eq`), and it is the only thing that does
(`answered_once_iff`). What the constructor of the request finds wrong it
prints, and the request goes to the router all the same: so a callback sees a
faulty message exactly if the message is faulty and a route admits it
(`callbacks_see_faultless_iff`).

Key definitions: `Syscall`, `Served`, `respond`, `parsereq`, `Faultless`.
Key theorems: `served_eq`, `answered_once_iff`, `callbacks_see_faultless_iff`.
-/
import NiceHttp.Recv
import NiceHttp.Router

namespace NiceHttp

open CString Text

/-- A system call on the descriptor of the connection. The result of `send` is not
looked at; that it returns, and no signal ends the process, is assumed. -/
inductive Syscall where
  | recv (n : RecvResult)
  | send (raw : Str)
  | close

namespace Syscall

def isSend : Syscall → Bool
  | send _ => true
  | _ => false

def isClose : Syscall → Bool
  | close => true
  | _ => false

end Syscall

/-- What a call of `parsereq` did, and how it ended. -/
structure Served where
  syscalls : List Syscall
  calls : List (Route × Request)
  result : Except Exn Unit

/-- The headers that go into every response. -/
def Response.serverHeaders (resp : Response) : Response :=
  { resp with
    headers := (resp.headers.insert (str "Server", str "NiceHTTP")).insert (str "Connection", str "close") }

section Parsereq

variable (regex : Regex) (s : Router)

/-- `parsereq` between the last `recv` and the `send`: the callbacks that are
invoked, and the text to send. -/
def respond (req body : Str) : List (Route × Request) × Except Exn Str :=
  match Request.ofHeadBody req body with
  | .error e => ([], .error e)
  | .ok (r, _) =>
    let resp := s.handle regex r
    (resp.calls, resp.result.map fun resp => resp.serverHeaders.toString)

/-- `NiceHTTP::parsereq` on what `recv` returns; nothing if the call is still
waiting in `recv`. -/
def parsereq (ns : List RecvResult) : Option Served :=
  match recvHttp ns with
  | none => none
  | some ((req, body), rest) =>
    let received := (ns.take (ns.length - rest.length)).map .recv
    match respond regex s req body with
    | (calls, .error e) => some { syscalls := received, calls := calls, result := .error e }
    | (calls, .ok raw) =>
      some { syscalls := received ++ [.send raw, .close], calls := calls, result := .ok () }

end Parsereq

/-! ### A call that ends -/

section Served

variable {regex : Regex} {s : Router} {ns : List RecvResult} {o : Served}

/-- What a call does that received the results and had the request handled. -/
def served (received : List RecvResult) (h : Handled) : Served :=
  match h.result with
  | .error e => { syscalls := received.map .recv, calls := h.calls, result := .error e }
  | .ok resp =>
    { syscalls := received.map .recv ++ [.send resp.serverHeaders.toString, .close], calls := h.calls,
      result := .ok () }

@[simp] theorem served_calls (received : List RecvResult) (h : Handled) : (served received h).calls = h.calls := by
  unfold served
  split <;> rfl

/-- **What a call did**: it received up to the end of the message and, if the
router answered, sent the answer and closed. -/
theorem served_eq (h : parsereq regex s ns = some o) :
    ∃ head body rest req out received,
      recvHttp ns = some ((head, body), rest) ∧ Request.ofHeadBody head body = .ok (req, out) ∧
        o = served received (s.handle regex req) := by
  unfold parsereq at h
  cases hrecv : recvHttp ns with
  | none =>
    rw [hrecv] at h
    cases h
  | some res =>
    obtain ⟨⟨head, body⟩, rest⟩ := res
    obtain ⟨req, out, hreq⟩ := Request.ofHeadBody_ok head body
    refine ⟨head, body, rest, req, out, ns.take (ns.length - rest.length), rfl, hreq, ?_⟩
    simp only [hrecv, respond, hreq] at h
    unfold served
    cases hres : (s.handle regex req).result with
    | error e =>
      simp only [hres, Except.map] at h
      exact (Option.some.inj h).symm
    | ok resp =>
      simp only [hres, Except.map] at h
      exact (Option.some.inj h).symm

theorem countP_recv (p : Syscall → Bool) (hp : ∀ n, p (.recv n) = false) (ns : List RecvResult) :
    (ns.map Syscall.recv).countP p = 0 := by
  rw [List.countP_map, List.countP_eq_zero]
  intro n _
  simp [hp n]

/-- **One `send` and one `close`** come from a call exactly if a route is
selected whose callback returns if it is invoked, or all patterns are valid and
no route takes the request. -/
theorem answered_once_iff (h : parsereq regex s ns = some o) :
    ∃ head body rest req out,
      recvHttp ns = some ((head, body), rest) ∧ Request.ofHeadBody head body = .ok (req, out) ∧
      (o.syscalls.countP Syscall.isSend = 1 ∧ o.syscalls.countP Syscall.isClose = 1 ↔
        (∃ r, Selected regex s req r ∧ (Admits r req → ∃ resp, r.func req = .ok resp)) ∨
          Untaken regex s req) := by
  obtain ⟨head, body, rest, req, out, received, hrecv, hreq, rfl⟩ := served_eq h
  refine ⟨head, body, rest, req, out, hrecv, hreq, ?_⟩
  rw [← result_ok]
  have hsend := countP_recv Syscall.isSend (fun _ => rfl) received
  have hclose := countP_recv Syscall.isClose (fun _ => rfl) received
  unfold served
  cases hres : (s.handle regex req).result with
  | error e => simp [hsend]
  | ok resp => simp [hsend, hclose, List.countP_cons, Syscall.isSend, Syscall.isClose]

/-- A router with one route, whose callback throws. -/
def throwingRouter : Router :=
  Router.add {} { func := fun _ => .error (.callback (str "bad_alloc")), method := .literal (str "GET"),
                  uri := .literal (str "/") }

theorem answered_once_iff_demo :
    ∃ o, parsereq demoRegex (Router.add {} demoRoute) [.data getPacket] = some o ∧
      ∃ head body rest req out,
        recvHttp [.data getPacket] = some ((head, body), rest) ∧
        Request.ofHeadBody head body = .ok (req, out) ∧
        (o.syscalls.countP Syscall.isSend = 1 ∧ o.syscalls.countP Syscall.isClose = 1 ↔
          (∃ r, Selected demoRegex (Router.add {} demoRoute) req r ∧
            (Admits r req → ∃ resp, r.func req = .ok resp)) ∨
          Untaken demoRegex (Router.add {} demoRoute) req) := by
  have hrecv := recvHttp_packet getPacket (by decide) (by decide) []
  have h : parsereq demoRegex (Router.add {} demoRoute) [.data getPacket] =
      some (served [.data getPacket] { calls := [], result := .ok Router.notFound }) := by
    unfold parsereq
    rw [hrecv]
    rfl
  exact ⟨_, h, answered_once_iff h⟩

/-- A callback that throws leaves the connection without answer and open. -/
theorem throwing_callback_leaves_open :
    ∃ o, parsereq demoRegex throwingRouter [.data getPacket] = some o ∧
      o.syscalls.countP Syscall.isSend = 0 ∧ o.syscalls.countP Syscall.isClose = 0 ∧
      o.result = .error (.callback (str "bad_alloc")) := by
  have hrecv := recvHttp_packet getPacket (by decide) (by decide) []
  have h : ∃ o, parsereq demoRegex throwingRouter [.data getPacket] = some o ∧
      o.syscalls = [.recv (.data getPacket)] ∧ o.result = .error (.callback (str "bad_alloc")) := by
    unfold parsereq
    rw [hrecv]
    exact ⟨_, rfl, rfl, rfl⟩
  obtain ⟨o, ho, hcalls, hres⟩ := h
  refine ⟨o, ho, ?_, ?_, hres⟩
  · rw [hcalls]
    rfl
  · rw [hcalls]
    rfl

end Served

/-! ### What a callback sees -/

/-- The message has none of the faults that the constructor reports: it has a
first line, of HTTP/1.1, and its body has the announced length, if any. -/
def Faultless (head body : Str) : Prop :=
  ∃ i, find (str "\r\n") head = some i ∧ (Request.readWords (head.take i)).proto = protoHttp1 ∧
    (announced head = 0 ∨ body.length = announced head)

/-- The request has none of the faults of the message that it comes from. -/
structure Trusted (head body : Str) (req : Request) : Prop where
  line : (find (str "\r\n") head).isSome
  proto : req.proto = protoHttp1
  length : req.contentLength = 0 ∨ body.length = req.contentLength.toNat
  payload : req.contentLength > 0 → req.body.length = req.contentLength.toNat

section Trusted

variable {head body : Str} {req : Request} {out : List Str}

theorem parsed_contentLength {i : ℕ} (h : find (str "\r\n") head = some i) (proto b : Str) :
    (Message.parsed proto (head.drop (i + 2)) b).contentLength.toNat = announced head := by
  rw [← read_contentLength h proto]
  unfold Message.parsed Message.withBody
  split <;> rfl

/-- A message that takes the body either announces its length or none. -/
theorem parsed_body {proto s : Str}
    (h : (Message.parsed proto s body).contentLength = 0 ∨
      body.length = (Message.parsed proto s body).contentLength.toNat) :
    (Message.parsed proto s body).body = body := by
  unfold Message.parsed Message.withBody at h ⊢
  split
  · rename_i hm
    rw [if_pos hm] at h
    rcases h with h | h
    · exact absurd hm.1 (by simp [h])
    · exact absurd h hm.2
  · rfl

/-- **The parsed request is as good as its message.** -/
theorem trusted_iff (h : Request.ofHeadBody head body = .ok (req, out)) :
    Trusted head body req ↔ Faultless head body := by
  cases hf : find (str "\r\n") head with
  | none =>
    refine ⟨fun ht => ?_, fun ⟨i, hi, _⟩ => ?_⟩
    · have hline := ht.line
      rw [hf] at hline
      cases hline
    · rw [hf] at hi
      cases hi
  | some i =>
    rw [Request.ofHeadBody_some hf] at h
    obtain ⟨rfl, -⟩ := Prod.mk.inj (Except.ok.inj h)
    have hlen := parsed_contentLength hf (Request.readWords (head.take i)).proto body
    have hzero : (Request.built head i body).contentLength = 0 ↔ announced head = 0 := by
      rw [← hlen, ← UInt64.toNat_inj]
      rfl
    constructor
    · intro ht
      have hproto := ht.proto
      rw [Request.built, parsed_proto] at hproto
      refine ⟨i, hf, hproto, ht.length.imp hzero.mp fun hb => ?_⟩
      rw [hb, ← hlen]
      rfl
    · rintro ⟨j, hj, hproto, hbody⟩
      obtain rfl := Option.some.inj (hf.symm.trans hj)
      have hlength : (Request.built head i body).contentLength = 0 ∨
          body.length = (Request.built head i body).contentLength.toNat :=
        hbody.imp hzero.mpr fun hb => hb.trans hlen.symm
      refine ⟨by rw [hf]; rfl, by rw [Request.built, parsed_proto, hproto], hlength, fun hpos => ?_⟩
      have htaken : (Request.built head i body).body = body := parsed_body hlength
      rw [htaken]
      exact hlength.resolve_left fun h0 => by simp [h0] at hpos

/-- What the constructor prints says whether the message is faulty. -/
theorem report_nil_iff (h : Request.ofHeadBody head body = .ok (req, out)) : out = [] ↔ Faultless head body := by
  cases hf : find (str "\r\n") head with
  | none =>
    rw [Request.ofHeadBody_none hf] at h
    obtain ⟨-, rfl⟩ := Prod.mk.inj (Except.ok.inj h)
    constructor
    · intro hnil
      cases hnil
    · rintro ⟨i, hi, -⟩
      rw [hf] at hi
      cases hi
  | some i =>
    rw [Request.ofHeadBody_some hf] at h
    obtain ⟨-, rfl⟩ := Prod.mk.inj (Except.ok.inj h)
    have hlen := read_contentLength hf (Request.readWords (head.take i)).proto
    have hmis : (({ proto := (Request.readWords (head.take i)).proto } : Message).read
        (head.drop (i + 2))).Mismatch body ↔ ¬ (announced head = 0 ∨ body.length = announced head) := by
      rw [Message.Mismatch, hlen, not_or, ← hlen, gt_iff_lt, UInt64.pos_iff_ne_zero, ne_eq,
        ← UInt64.toNat_inj]
      rfl
    simp only [Message.report, hmis, read_proto, Faultless, hf, Option.some.injEq, exists_eq_left']
    by_cases hproto : (Request.readWords (head.take i)).proto = protoHttp1
    · by_cases hbody : announced head = 0 ∨ body.length = announced head
      · simp [hproto, hbody]
      · simp [hproto, hbody]
    · simp [hproto]

end Trusted

/-- **Callbacks see faultless messages only** in a call exactly if the message
is faultless, or no route is selected that admits the request. -/
theorem callbacks_see_faultless_iff {regex : Regex} {s : Router} {ns : List RecvResult} {o : Served}
    (h : parsereq regex s ns = some o) :
    ∃ head body rest req out,
      recvHttp ns = some ((head, body), rest) ∧ Request.ofHeadBody head body = .ok (req, out) ∧
      ((∀ c ∈ o.calls, Trusted head body c.2) ↔
        Faultless head body ∨ ¬ ∃ r, Selected regex s req r ∧ Admits r req) := by
  obtain ⟨head, body, rest, req, out, received, hrecv, hreq, rfl⟩ := served_eq h
  refine ⟨head, body, rest, req, out, hrecv, hreq, ?_⟩
  rw [served_calls, ← trusted_iff hreq]
  constructor
  · intro hall
    rw [or_iff_not_imp_right, not_not]
    rintro ⟨r, hsel, hadm⟩
    exact hall (r, req) (mem_calls.mpr ⟨rfl, hsel, hadm⟩)
  · rintro (ht | hno) c hc
    · rw [(mem_calls.mp hc).1]
      exact ht
    · exact absurd ⟨c.1, (mem_calls.mp hc).2⟩ hno

/-- A request of another protocol that announces five bytes and brings none. -/
def faultyPacket : Chunk :=
  ⟨str "POST / HTTP/1.0\r\nContent-Length: 5\r\n\r\n", by decide, by decide⟩

/-- A router that takes the request. -/
def postRouter : Router :=
  Router.add {} { func := fun _ => .ok { code := 200, message := str "OK", proto := protoHttp1 },
                  method := .literal (str "POST"), uri := .literal (str "/") }

theorem callbacks_see_faultless_iff_post :
    ∃ o, parsereq demoRegex postRouter [.data faultyPacket] = some o ∧
      ∃ head body rest req out,
        recvHttp [.data faultyPacket] = some ((head, body), rest) ∧
        Request.ofHeadBody head body = .ok (req, out) ∧
        ((∀ c ∈ o.calls, Trusted head body c.2) ↔
          Faultless head body ∨ ¬ ∃ r, Selected demoRegex postRouter req r ∧ Admits r req) := by
  have hrecv := recvHttp_packet faultyPacket (by decide) (by decide) []
  have h : ∃ o, parsereq demoRegex postRouter [.data faultyPacket] = some o := by
    unfold parsereq
    rw [hrecv]
    exact ⟨_, rfl⟩
  obtain ⟨o, ho⟩ := h
  exact ⟨o, ho, callbacks_see_faultless_iff ho⟩

/-- The callback is invoked on a request of another protocol whose length is
not that of its body. -/
theorem callback_sees_faulty_message :
    ∃ o, parsereq demoRegex postRouter [.data faultyPacket] = some o ∧
      o.calls.map (fun c => (c.2.proto, c.2.contentLength, c.2.body)) = [(str "HTTP/1.0", 5, [])] := by
  have hrecv := recvHttp_packet faultyPacket (by decide) (by decide) []
  unfold parsereq
  rw [hrecv]
  exact ⟨_, rfl, rfl⟩

end NiceHttp
