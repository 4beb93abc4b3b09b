/-
# What comes behind a message

A connection carries one request and one response, but a peer may send more:
a second request before the first is answered, or a body without its length.
Nothing of it is kept for a second message. `recv_http` puts what has arrived
behind the empty line into the body, and the constructor takes it for the body
if no length was announced, and otherwise leaves the body out, the announced
one with it (`Message.behind`).

So the server makes of a request and any text behind it one request with
another body: the route is that of the request alone, one answer is sent at
most, and no callback is invoked for the text (`text_behind`). The client reads
a response in the same way (`response_behind`).

Key definitions: `Message.behind`.
Key theorems: `cut_append`, `Message.parsed_behind`, `text_behind`,
`response_behind`.
-/
import NiceHttp.RemoteCall

namespace NiceHttp

open CString Text

/-- What comes behind a text is behind its cut. -/
theorem cut_append {text head body : Str} (h : cut text = some (head, body)) (t : Str) :
    cut (text ++ t) = some (head, body ++ t) := by
  obtain ⟨p, hp, hcut⟩ := Option.map_eq_some_iff.mp h
  obtain ⟨rfl, rfl⟩ := Prod.mk.inj hcut
  have hle : p + 4 ≤ text.length := (find_le hp).resolve_right nofun
  rw [cut, find_extend (by decide) t hp, Option.map_some, List.take_append_of_le_length hle,
    List.drop_append_of_le_length hle]

/-! ### The message -/

/-- The message as it is read with a text behind it. -/
def Message.behind (m : Message) (t : Str) : Message :=
  { m with body := if m.contentLength = 0 then t else if t = [] then m.body else [] }

def Request.behind (q : Request) (t : Str) : Request := { q with toMessage := q.toMessage.behind t }

def Response.behind (r : Response) (t : Str) : Response := { r with toMessage := r.toMessage.behind t }

/-- Another body than the announced one is left out. -/
theorem Message.withBody_behind {m : Message} (hlen : m.contentLength.toNat = m.body.length) (t : Str) :
    ({ m with body := [] } : Message).withBody (m.payload ++ t) = m.behind t := by
  by_cases hc : m.contentLength = 0
  · have hpayload : m.payload = [] := by simp [payload, hc]
    have hfits : ¬ ({ m with body := [] } : Message).Mismatch t := fun hm => absurd hm.1 (by simp [hc])
    rw [hpayload, List.nil_append, withBody, if_neg hfits, behind, if_pos hc]
  · have hpayload : m.payload = m.body := by simp [payload, hc]
    rw [hpayload, withBody, behind, if_neg hc]
    by_cases ht : t = []
    · have hfits : ¬ ({ m with body := [] } : Message).Mismatch (m.body ++ t) := fun hm => hm.2 (by simp [ht, hlen])
      rw [if_neg hfits, if_pos ht, ht, List.append_nil]
    · have hlonger : ({ m with body := [] } : Message).Mismatch (m.body ++ t) := by
        have hpos := List.length_pos_iff.mpr ht
        refine ⟨UInt64.pos_iff_ne_zero.mpr hc, ?_⟩
        rw [List.length_append]
        show m.body.length + t.length ≠ m.contentLength.toNat
        omega
      rw [if_pos hlonger, if_neg ht]

/-- **A printed message with a text behind it.** -/
theorem Message.Encodable.parsed_behind {m : Message} (h : m.Encodable) (t : Str) :
    parsed m.proto (block 13 10 m.headerLines ++ [13, 10]) (m.payload ++ t) =
      ({ m with headers := m.headers.lowerNames } : Message).behind t := by
  rw [parsed, read_headerLines h.wire, h.onWire]
  exact withBody_behind (m := { m with headers := m.headers.lowerNames }) h.length t

/-- A request that can be told from its text, with a text behind it. -/
theorem Request.Sendable.read_behind {q : Request} (hq : q.Sendable) (t : Str) :
    ∃ head body, cut (q.toString ++ t) = some (head, body) ∧
      ∃ out, ofHeadBody head body = .ok (q.lowered.behind t, out) := by
  have hstart : Free 13 10 (q.method ++ str " " ++ q.uri ++ str " " ++ q.proto) :=
    free_join (free_join hq.method.2.free hq.uri.2.free) hq.proto.2.free
  obtain ⟨hfind, htake, hdrop⟩ := head_parts hstart q.headerLines
  refine ⟨_, _, cut_append (cut_format hstart hq.message.wire) t, ?_⟩
  rw [ofHeadBody_some hfind, built, htake, hdrop, readWords_line hq.method.1 hq.uri.1 hq.proto.1,
    hq.message.parsed_behind t]
  exact ⟨_, rfl⟩

/-- A response that can be told from its text, with a text behind it. -/
theorem Answerable.read_behind {r : Response} (hr : Answerable r) (code₀ : Int16) (t : Str) :
    ∃ head body, cut (r.serverHeaders.toString ++ t) = some (head, body) ∧
      ∃ out, Response.ofHeadBody code₀ head body = .ok (r.serverHeaders.lowered.behind t, out) := by
  have hcode : Free 13 10 (printInt r.code.toInt) := free_of_notMem_left (notMem_printInt (by decide))
  have hstart : Free 13 10 (r.proto ++ str " " ++ printInt r.code.toInt ++ str " " ++ r.message) :=
    free_join (free_join hr.proto.2.free hcode) hr.message.free
  obtain ⟨hfind, htake, hdrop⟩ := head_parts hstart r.serverHeaders.headerLines
  obtain ⟨hres, hmsg⟩ := Response.scan_line code₀ r.code hr.proto.1 hr.spaces
  have hparsed : Message.parsed r.proto (block 13 10 r.serverHeaders.headerLines ++ [13, 10])
      (r.serverHeaders.payload ++ t) = r.serverHeaders.lowered.toMessage.behind t := hr.headers.parsed_behind t
  refine ⟨_, _, cut_append (cut_format hstart hr.headers.wire) t, ?_⟩
  rw [Response.ofHeadBody_some code₀ hfind, htake, hmsg]
  simp only [Except.map, Response.built, htake, hdrop, hres, hparsed]
  exact ⟨_, rfl⟩

/-! ### Both sides -/

section Behind

variable {regex : Regex} {router : Router} {q : Request} {ns : List RecvResult} {t : Str}

theorem isSend_served (received : List RecvResult) (h : Handled) :
    (served received h).syscalls.countP Syscall.isSend ≤ 1 := by
  have hrecv := countP_recv Syscall.isSend (fun _ => rfl) received
  unfold served
  cases h.result with
  | error e => exact hrecv.le.trans (Nat.zero_le 1)
  | ok resp => simp [List.countP_append, hrecv, List.countP_cons, Syscall.isSend]

/-- **A text behind a request** is not a request: it changes the body, but not
the route, no callback is invoked for it, and no answer is sent to it. -/
theorem text_behind (hq : q.Sendable) (hns : Delivers ns (q.toString ++ t)) :
    ∃ o, parsereq regex router ns = some o ∧
      (∀ c, c ∈ o.calls ↔ c.2 = q.lowered.behind t ∧ (c.1, q.lowered) ∈ (router.handle regex q.lowered).calls) ∧
      (∀ raw, .send raw ∈ o.syscalls ↔
        ∃ resp, (router.handle regex (q.lowered.behind t)).result = .ok resp ∧ raw = resp.serverHeaders.toString) ∧
      o.syscalls.countP Syscall.isSend ≤ 1 := by
  obtain ⟨head, body, hcut, out, hread⟩ := hq.read_behind t
  refine ⟨_, parsereq_of_recv (hns.recv hcut) hread, fun c => ?_, fun raw => send_mem_served, isSend_served _ _⟩
  rw [served_calls, mem_calls, mem_calls]
  -- neither the scan nor the token looks at the body
  constructor
  · rintro ⟨hc, hselected, hadmits⟩
    exact ⟨hc, rfl, hselected, hadmits⟩
  · rintro ⟨hc, -, hselected, hadmits⟩
    exact ⟨hc, hselected, hadmits⟩

/-- **A text behind a response** comes to the client as its body, if the
response has none, and otherwise takes the body away. -/
theorem response_behind {resp : Response} (hresp : Answerable resp) {c : NiceHTTP} {host : Str} {port code₀ : Int16}
    {p : Peer} (hc : c.Reaches host port p) (hp : Delivers p.received (resp.serverHeaders.toString ++ t)) :
    ∃ c', c.request q host port code₀ p = some (c', .ok (resp.serverHeaders.lowered.behind t)) := by
  obtain ⟨head, body, hcut, out, hread⟩ := hresp.read_behind code₀ t
  obtain ⟨c', hrequest, -⟩ := NiceHTTP.request_answered hc (hp.recv hcut) hread
  exact ⟨c', hrequest⟩

/-- A second request. -/
def pipelined : Str := str "GET / HTTP/1.1\r\n\r\n"

/-- Two requests in one packet. -/
def twoPacket : Chunk where
  bytes := demoPacket.bytes ++ pipelined
  pos := by decide
  le := by decide

theorem text_behind_demo :
    ∃ o, parsereq demoRegex (Router.add {} demoRoute) [.data twoPacket] = some o ∧
      (∀ c, c ∈ o.calls ↔ c.2 = demoRequest.lowered.behind pipelined ∧
        (c.1, demoRequest.lowered) ∈ ((Router.add {} demoRoute).handle demoRegex demoRequest.lowered).calls) ∧
      o.syscalls.countP Syscall.isSend ≤ 1 := by
  have hdelivers : Delivers [.data twoPacket] (demoRequest.toString ++ pipelined) :=
    delivers_packet twoPacket (by decide) (by decide)
  obtain ⟨o, ho, hcalls, -, hsend⟩ :=
    @text_behind demoRegex (Router.add {} demoRoute) _ _ _ demoRequest_sendable hdelivers
  exact ⟨o, ho, hcalls, hsend⟩

end Behind

end NiceHttp
