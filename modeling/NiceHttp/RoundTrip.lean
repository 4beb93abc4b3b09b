/-
# Printing and reading are inverse

`toString`, the cut behind the first empty line and the constructor, in a row.
For a message an application builds under the usual restrictions (`Plain`
start line, `Encodable` headers) the constructor gives back the message, with
its header names in lower case (`request_decode_encode`,
`response_decode_encode`). For a message that the constructor itself built the
second reading gives the first one again, except that a message without a
`Content-Length` is printed without its body and its JSON flag
(`reserialise`).

Key definitions: `Plain`, `Message.Encodable`.
Key theorems: `request_decode_encode`, `response_decode_encode`,
`reserialise`.
-/
import NiceHttp.Wire

namespace NiceHttp

open CString Text

/-! ### The head that was printed -/

/-- The head that the cut leaves: the start line and the header block. -/
theorem head_parts {start : Str} (hs : Free 13 10 start) (ls : List Str) :
    find (str "\r\n") (block 13 10 (start :: ls) ++ [13, 10]) = some start.length ∧
      (block 13 10 (start :: ls) ++ [13, 10]).take start.length = start ∧
      (block 13 10 (start :: ls) ++ [13, 10]).drop (start.length + 2) = block 13 10 ls ++ [13, 10] := by
  have htext : block 13 10 (start :: ls) ++ [13, 10] = start ++ 13 :: 10 :: (block 13 10 ls ++ [13, 10]) := by
    simp
  rw [htext, crlf_eq]
  refine ⟨find_pair_append (by decide) hs _, List.take_left, ?_⟩
  rw [List.drop_append]
  simp

/-- Words joined by spaces have no line end if none of them has. -/
theorem free_join {a b : Str} (ha : Free 13 10 a) (hb : Free 13 10 b) : Free 13 10 (a ++ str " " ++ b) := by
  have hstr : a ++ str " " ++ b = a ++ 32 :: b := by
    have : str " " = [32] := by decide
    simp [this]
  rw [hstr, free_append_cons (by decide) (by decide)]
  exact ⟨ha, hb⟩

/-- A body of the announced length, or none. -/
def Message.BodyFits (m : Message) : Prop :=
  m.contentLength ≠ 0 → m.body.length = m.contentLength.toNat ∨ m.body = []

/-- The word loop on a first line of three words. -/
theorem Request.readWords_line {method uri proto : Str} (hm : ch ' ' ∉ method) (hu : ch ' ' ∉ uri)
    (hp : ch ' ' ∉ proto) :
    readWords (method ++ str " " ++ uri ++ str " " ++ proto) =
      { method := method, uri := uri, proto := proto } := by
  have hline : method ++ str " " ++ uri ++ str " " ++ proto = method ++ ch ' ' :: (uri ++ ch ' ' :: proto) := by
    have hstr : str " " = [ch ' '] := rfl
    simp only [hstr, List.append_assoc, List.cons_append, List.nil_append]
  have hsplit : splitView (ch ' ') (method ++ ch ' ' :: (uri ++ ch ' ' :: proto)) = [method, uri, proto] := by
    rw [splitView_of_ne_nil _ (by simp), List.splitOn_append_cons_self_of_not_mem hm,
      List.splitOn_append_cons_self_of_not_mem hu, List.splitOn_eq_singleton hp]
  rw [readWords, hline, hsplit]
  rfl

/-- **A printed request is read back as it is on the wire.** -/
theorem Request.read_print {q : Request} (hm : ch ' ' ∉ q.method) (hu : ch ' ' ∉ q.uri)
    (hp : ch ' ' ∉ q.proto) (hs : Free 13 10 (q.method ++ str " " ++ q.uri ++ str " " ++ q.proto))
    (hh : ∀ e ∈ q.headers, WireHeader e) (hb : q.BodyFits) :
    ∃ head, cut q.toString = some (head, q.payload) ∧
      ∃ out, ofHeadBody head q.payload = .ok ({ q with toMessage := q.onWire }, out) := by
  obtain ⟨hfind, htake, hdrop⟩ := head_parts hs q.headerLines
  refine ⟨_, cut_format hs hh, ?_⟩
  rw [ofHeadBody_some hfind, built, htake, hdrop, readWords_line hm hu hp, Message.parsed_format hh q.proto hb]
  exact ⟨_, rfl⟩

/-- **A printed response is read back as it is on the wire.** -/
theorem Response.read_print {p : Response} (hp : ch ' ' ∉ p.proto) (hc : p.message.count (ch ' ') ≤ 65533)
    (hs : Free 13 10 (p.proto ++ str " " ++ printInt p.code.toInt ++ str " " ++ p.message))
    (hh : ∀ e ∈ p.headers, WireHeader e) (hb : p.BodyFits) (code₀ : Int16) :
    ∃ head, cut p.toString = some (head, p.payload) ∧
      ∃ out, ofHeadBody code₀ head p.payload = .ok ({ p with toMessage := p.onWire }, out) := by
  obtain ⟨hfind, htake, hdrop⟩ := head_parts hs p.headerLines
  obtain ⟨hres, hmsg⟩ := scan_line code₀ p.code hp hc
  refine ⟨_, cut_format hs hh, ?_⟩
  rw [ofHeadBody_some code₀ hfind, htake, hmsg]
  simp only [Except.map, built, htake, hdrop, hres, Message.parsed_format hh p.proto hb]
  exact ⟨_, rfl⟩

/-! ### Messages that an application builds -/

/-- A text without line end letters. -/
abbrev NoEol (s : Str) : Prop := ch '\r' ∉ s ∧ ch '\n' ∉ s

/-- A word of a start line. -/
abbrev Plain (s : Str) : Prop := ch ' ' ∉ s ∧ NoEol s

theorem NoEol.free {s : Str} (h : NoEol s) : Free 13 10 s := free_of_notMem_left h.1

/-- The headers and the body of a message that can be told from its text. -/
structure Message.Encodable (m : Message) : Prop where
  name : ∀ e ∈ m.headers, NoEol e.1 ∧ ¬ str ": " <:+: e.1
  value : ∀ e ∈ m.headers, NoEol e.2
  distinct : (m.headers.toList.map fun e => e.1.map tolower).Nodup
  noLength : ∀ e ∈ m.headers, e.1.map tolower ≠ str "content-length"
  noJson : ∀ e ∈ m.headers, ¬ (e.1.map tolower = str "content-type" ∧ e.2 = str "application/json")
  length : m.contentLength.toNat = m.body.length
  json : m.isJson = true → m.body ≠ []

theorem Message.Encodable.wire {m : Message} (h : m.Encodable) : ∀ e ∈ m.headers, WireHeader e := fun e he =>
  wireHeader_of (h.name e he).1.2 (free_of_no_occurrence (by simpa using (h.name e he).2)) (h.value e he).2
    (h.noLength e he) (h.noJson e he)

theorem Message.Encodable.bodyFits {m : Message} (h : m.Encodable) : m.BodyFits := fun _ => Or.inl h.length.symm

/-- Nothing but the case of the names is lost on the wire. -/
theorem Message.Encodable.onWire {m : Message} (h : m.Encodable) :
    m.onWire = { m with headers := m.headers.lowerNames } := by
  have hlen := h.length
  unfold Message.onWire Message.payload
  by_cases hc : m.contentLength = 0
  · have hbody : m.body = [] := by
      rw [hc] at hlen
      exact List.length_eq_zero_iff.mp hlen.symm
    have hjson : m.isJson = false := by
      by_contra hj
      exact h.json (by simpa using hj) hbody
    simp [hc, hbody, hjson]
  · simp [hc]

/-- With different names in lower case the map keeps every entry. -/
theorem mem_lowerNames {h : Headers} (hd : (h.toList.map fun e => e.1.map tolower).Nodup) (k v : Str) :
    (k, v) ∈ h.lowerNames ↔ ∃ n, (n, v) ∈ h ∧ n.map tolower = k := by
  have hpair : (h.toList.map fun e => (e.1.map tolower, e.2)).Pairwise fun a b => a.1 ≠ b.1 := by
    rw [List.pairwise_map]
    exact List.pairwise_map.mp hd
  unfold Headers.lowerNames
  rw [SortedSet.mem_insertAll hpair]
  constructor
  · intro he
    obtain ⟨⟨n, v'⟩, hn, heq⟩ := List.mem_map.mp he
    cases heq
    exact ⟨n, hn, rfl⟩
  · rintro ⟨n, hn, rfl⟩
    exact List.mem_map.mpr ⟨(n, v), hn, rfl⟩

/-- **Request decode undoes encode.** -/
theorem request_decode_encode (q : Request) (hm : Plain q.method) (hu : Plain q.uri) (hp : Plain q.proto)
    (hq : q.Encodable) :
    ∃ head body r out, cut q.toString = some (head, body) ∧ Request.ofHeadBody head body = .ok (r, out) ∧
      r.method = q.method ∧ r.uri = q.uri ∧ r.proto = q.proto ∧ r.body = q.body ∧
      r.contentLength = q.contentLength ∧ r.isJson = q.isJson ∧
      ∀ k v, (k, v) ∈ r.headers ↔ ∃ n, (n, v) ∈ q.headers ∧ n.map tolower = k := by
  obtain ⟨head, hcut, out, hread⟩ := Request.read_print hm.1 hu.1 hp.1
    (free_join (free_join hm.2.free hu.2.free) hp.2.free) hq.wire hq.bodyFits
  rw [hq.onWire] at hread
  exact ⟨head, _, _, out, hcut, hread, rfl, rfl, rfl, rfl, rfl, rfl, mem_lowerNames hq.distinct⟩

/-- A request with a token, a content type of its own and a JSON body. -/
def tokenRequest : Request where
  method := str "POST"
  uri := str "/test/2"
  proto := protoHttp1
  headers := (∅ : Headers).insertAll
    [(str "Authorization", str "apptoken123"), (str "Content-Type", str "text/plain")]
  isJson := true
  contentLength := 2
  body := str "{}"

theorem request_decode_encode_token :
    ∃ head body r out, cut tokenRequest.toString = some (head, body) ∧
      Request.ofHeadBody head body = .ok (r, out) ∧ r.method = str "POST" ∧ r.uri = str "/test/2" ∧
      r.proto = protoHttp1 ∧ r.body = str "{}" ∧ r.contentLength = 2 ∧ r.isJson = true ∧
      ∀ k v, (k, v) ∈ r.headers ↔ ∃ n, (n, v) ∈ tokenRequest.headers ∧ n.map tolower = k :=
  request_decode_encode tokenRequest ⟨by decide, by decide, by decide⟩ ⟨by decide, by decide, by decide⟩
    ⟨by decide, by decide, by decide⟩
    ⟨by decide, by decide, by decide, by decide, by decide, by decide, by decide⟩

/-- **Response decode undoes encode**, whatever the memory of `code` held. -/
theorem response_decode_encode (p : Response) (hp : Plain p.proto) (hm : NoEol p.message)
    (hc : p.message.count (ch ' ') ≤ 65533) (hq : p.Encodable) (code₀ : Int16) :
    ∃ head body r out, cut p.toString = some (head, body) ∧ Response.ofHeadBody code₀ head body = .ok (r, out) ∧
      r.proto = p.proto ∧ r.code = p.code ∧ r.message = p.message ∧ r.body = p.body ∧
      r.contentLength = p.contentLength ∧ r.isJson = p.isJson ∧
      ∀ k v, (k, v) ∈ r.headers ↔ ∃ n, (n, v) ∈ p.headers ∧ n.map tolower = k := by
  have hcode : Free 13 10 (printInt p.code.toInt) := free_of_notMem_left (notMem_printInt (by decide))
  obtain ⟨head, hcut, out, hread⟩ := Response.read_print hp.1 hc
    (free_join (free_join hp.2.free hcode) hm.free) hq.wire hq.bodyFits code₀
  rw [hq.onWire] at hread
  exact ⟨head, _, _, out, hcut, hread, rfl, rfl, rfl, rfl, rfl, rfl, mem_lowerNames hq.distinct⟩

/-- A response with a negative code and spaces around its message. -/
def oddResponse : Response where
  proto := protoHttp1
  code := -7
  message := str " not  found "
  headers := (∅ : Headers).insertAll [(str "Server", str "NiceHTTP")]
  contentLength := 2
  body := str "ok"

theorem response_decode_encode_odd :
    ∃ head body r out, cut oddResponse.toString = some (head, body) ∧
      Response.ofHeadBody 0 head body = .ok (r, out) ∧ r.proto = protoHttp1 ∧ r.code = -7 ∧
      r.message = str " not  found " ∧ r.body = str "ok" ∧ r.contentLength = 2 ∧ r.isJson = false ∧
      ∀ k v, (k, v) ∈ r.headers ↔ ∃ n, (n, v) ∈ oddResponse.headers ∧ n.map tolower = k :=
  response_decode_encode oddResponse ⟨by decide, by decide, by decide⟩ ⟨by decide, by decide⟩ (by decide)
    ⟨by decide, by decide, by decide, by decide, by decide, by decide, by decide⟩ 0

/-! ### Messages that a constructor built -/

/-- A message without the parts that go with a `Content-Length`, if it has none. -/
def Message.withoutPayload (m : Message) : Message :=
  if m.contentLength = 0 then { m with body := [], isJson := false } else m

section Parsed

variable (proto s body : Str)

theorem parsed_wire {e : Str × Str} (he : e ∈ (Message.parsed proto s body).headers) :
    WireHeader e ∧ e.1.map tolower = e.1 := wireHeader_of_read (parsed_headers proto s body ▸ he)

theorem parsed_lowerNames :
    (Message.parsed proto s body).headers.lowerNames = (Message.parsed proto s body).headers := by
  have hid : ((Message.parsed proto s body).headers.toList.map fun e => (e.1.map tolower, e.2)) =
      (Message.parsed proto s body).headers.toList := by
    refine (List.map_congr_left fun e he => ?_).trans (List.map_id _)
    rw [(parsed_wire proto s body he).2]
    rfl
  rw [Headers.lowerNames, hid, SortedSet.insertAll_toList]

/-- A body of a wrong length was not taken. -/
theorem parsed_bodyFits : (Message.parsed proto s body).BodyFits := by
  intro hc
  unfold Message.parsed Message.withBody at hc ⊢
  split
  · right
    exact foldl_put_body _ _
  · rename_i hm
    rw [if_neg hm] at hc
    left
    by_contra hlen
    exact hm ⟨UInt64.pos_iff_ne_zero.mpr hc, hlen⟩

theorem parsed_onWire : (Message.parsed proto s body).onWire = (Message.parsed proto s body).withoutPayload := by
  unfold Message.onWire Message.withoutPayload Message.payload
  rw [parsed_lowerNames]
  generalize Message.parsed proto s body = m
  by_cases hc : m.contentLength = 0
  · simp [hc]
  · simp [hc]

end Parsed

/-- A head that ends in its first empty line has a line end, and none before it. -/
theorem find_crlf_of_cut {head : Str} {rest : Str × Str} (h : cut head = some rest) :
    ∃ i, find (str "\r\n") head = some i ∧ Free 13 10 (head.take i) := by
  obtain ⟨j, hj, -⟩ := Option.map_eq_some_iff.mp h
  cases hf : find (str "\r\n") head with
  | some i =>
    rw [crlf_eq] at hf
    exact ⟨i, rfl, (find_pair_some hf).1⟩
  | none =>
    have hpre : str "\r\n" <+: str "\r\n\r\n" := by decide
    exact absurd (hpre.trans (find_some hj)) (find_none hf j)

/-- **A parsed request, printed and parsed again**, is the same but for what
goes with a `Content-Length`. -/
theorem Request.reparse {head body : Str} (hhead : cut head = some (head, [])) {r : Request} {out : List Str}
    (h : ofHeadBody head body = .ok (r, out)) :
    ∃ head' body' out', cut r.toString = some (head', body') ∧
      ofHeadBody head' body' = .ok ({ r with toMessage := r.withoutPayload }, out') := by
  obtain ⟨i, hi, hfree⟩ := find_crlf_of_cut hhead
  obtain ⟨⟨hm, hm'⟩, ⟨hu, hu'⟩, ⟨hp, hp'⟩⟩ := word_readWords (head.take i)
  rw [ofHeadBody_some hi] at h
  obtain ⟨rfl, -⟩ := Prod.mk.inj (Except.ok.inj h)
  obtain ⟨head', hcut, out', hread⟩ := read_print (q := built head i body) hm' hu'
    (by simpa [built] using hp')
    (free_join (free_join (hfree.piece hm) (hfree.piece hu)) (by simpa [built] using hfree.piece hp))
    (fun e he => (parsed_wire _ _ _ he).1) (parsed_bodyFits _ _ _)
  refine ⟨head', _, out', hcut, ?_⟩
  rw [hread, built, parsed_onWire]

/-- **A parsed response, printed and parsed again**, likewise, if its message
has so few spaces that the word counter does not come round. -/
theorem Response.reparse {head body : Str} (hhead : cut head = some (head, [])) {code₀ : Int16} {r : Response}
    {out : List Str} (h : ofHeadBody code₀ head body = .ok (r, out))
    (hc : r.message.count (ch ' ') ≤ 65533) (code₁ : Int16) :
    ∃ head' body' out', cut r.toString = some (head', body') ∧
      ofHeadBody code₁ head' body' = .ok ({ r with toMessage := r.withoutPayload }, out') := by
  obtain ⟨i, hi, hfree⟩ := find_crlf_of_cut hhead
  obtain ⟨hp, hp'⟩ := word_readWords code₀ (head.take i)
  rw [ofHeadBody_some code₀ hi] at h
  cases hmsg : substrFrom (head.take i) (readWords code₀ (head.take i)).messagePos with
  | error e =>
    rw [hmsg] at h
    cases h
  | ok message =>
    rw [hmsg] at h
    obtain ⟨rfl, -⟩ := Prod.mk.inj (Except.ok.inj h)
    have hsuffix : message <:+: head.take i := by
      unfold substrFrom at hmsg
      split at hmsg
      · cases hmsg
      · rw [← Except.ok.inj hmsg]
        exact (List.drop_suffix _ _).isInfix
    have hcode : Free 13 10 (printInt (built code₀ head i message body).code.toInt) :=
      free_of_notMem_left (notMem_printInt (by decide))
    obtain ⟨head', hcut, out', hread⟩ := read_print (p := built code₀ head i message body)
      (by simpa [built] using hp') hc
      (free_join (free_join (by simpa [built] using hfree.piece hp) hcode) (hfree.piece hsuffix))
      (fun e he => (parsed_wire _ _ _ he).1) (parsed_bodyFits _ _ _) code₁
    refine ⟨head', _, out', hcut, ?_⟩
    rw [hread, built, parsed_onWire]

/-- **Printing a parsed message and parsing it again loses at most what goes
with a `Content-Length`**: a message that announces a length comes back as it
is, one that does not comes back without its body and its JSON flag. -/
theorem reserialise {head : Str} (hhead : cut head = some (head, [])) (body : Str) :
    (∀ r out, Request.ofHeadBody head body = .ok (r, out) →
      ∃ head' body' r' out', cut r.toString = some (head', body') ∧
        Request.ofHeadBody head' body' = .ok (r', out') ∧
        r' = { r with
          body := if r.contentLength = 0 then [] else r.body
          isJson := r.isJson && r.contentLength ≠ 0 }) ∧
    ∀ code₀ code₁ r out, Response.ofHeadBody code₀ head body = .ok (r, out) →
      r.message.count (ch ' ') ≤ 65533 →
      ∃ head' body' r' out', cut r.toString = some (head', body') ∧
        Response.ofHeadBody code₁ head' body' = .ok (r', out') ∧
        r' = { r with
          body := if r.contentLength = 0 then [] else r.body
          isJson := r.isJson && r.contentLength ≠ 0 } := by
  have hpay : ∀ m : Message, m.withoutPayload = { m with
      body := if m.contentLength = 0 then [] else m.body
      isJson := m.isJson && m.contentLength ≠ 0 } := by
    intro m
    unfold Message.withoutPayload
    by_cases hc : m.contentLength = 0 <;> simp [hc]
  constructor
  · intro r out h
    obtain ⟨head', body', out', hcut, hread⟩ := Request.reparse hhead h
    exact ⟨head', body', _, out', hcut, hread, by rw [hpay]⟩
  · intro code₀ code₁ r out h hc
    obtain ⟨head', body', out', hcut, hread⟩ := Response.reparse hhead h hc code₁
    exact ⟨head', body', _, out', hcut, hread, by rw [hpay]⟩

theorem reserialise_length :
    ∃ r out head' body' r' out',
      Response.ofHeadBody 0 (str "HTTP/1.1 200 OK\r\nContent-Length: 5\r\n\r\n") (str "hello") = .ok (r, out) ∧
        cut r.toString = some (head', body') ∧ Response.ofHeadBody 0 head' body' = .ok (r', out') ∧
        r'.message = str "OK" ∧ r'.body = str "hello" := by
  have hhead : cut (str "HTTP/1.1 200 OK\r\nContent-Length: 5\r\n\r\n") =
      some (str "HTTP/1.1 200 OK\r\nContent-Length: 5\r\n\r\n", []) := by decide
  obtain ⟨head', body', r', out', hcut, hread, hr'⟩ :=
    (reserialise hhead (str "hello")).2 0 0 _ _ rfl (by decide)
  exact ⟨_, _, head', body', r', out', rfl, hcut, hread, by rw [hr']; rfl, by rw [hr']; rfl⟩

/-- A response without a length, received with a body: parsed, printed and
parsed again, it has lost the body. -/
theorem body_without_length_is_not_printed :
    ∃ r out head' body' r' out', Response.ofHeadBody 0 (str "HTTP/1.1 200 OK\r\n\r\n") (str "hello") = .ok (r, out) ∧
      cut (str "HTTP/1.1 200 OK\r\n\r\n") = some (str "HTTP/1.1 200 OK\r\n\r\n", []) ∧
      cut r.toString = some (head', body') ∧ Response.ofHeadBody 0 head' body' = .ok (r', out') ∧
      r.body = str "hello" ∧ r'.body = [] :=
  ⟨_, _, _, _, _, _, rfl, by decide, rfl, rfl, rfl, rfl⟩

end NiceHttp
