/-
# A chain of servers

A callback may call `request` itself and hand on the response that it gets.
`Response(head, body)` puts the header names in lower case, `parsereq` adds
`Server` and `Connection` beside them, and the map tells names by their case:
whatever the first answer was, every server that hands it on sends two lines
for `Server` and two for `Connection`. The lines do not pile up: the next
client reads the two as one, its upper-case line first, and from the second
server on all clients get the same response (`handed_on`).

Key definitions: `Response.Readable`, `Response.relayed`, `HandsOn`.
Key theorems: `mem_lowerNames_first`, `relayed_relayed`, `handed_on`.
-/
import NiceHttp.RemoteCall
import NiceHttp.Sent

namespace NiceHttp

open CString Text

/-! ### Names in lower case -/

/-- **The first spelling of a name counts**, upper case before lower case. -/
theorem mem_lowerNames_first {h : Headers} {k v : Str} :
    (k, v) ∈ h.lowerNames ↔
      ∃ n, (n, v) ∈ h ∧ n.map tolower = k ∧ ∀ b ∈ h, b.1 < n → b.1.map tolower ≠ k := by
  have hget : h.lowerNames.get k = (h.toList.find? fun e => e.1.map tolower = k).map fun e => (e.1.map tolower, e.2) := by
    rw [Headers.lowerNames, SortedSet.get_insertAll, SortedSet.get_empty, Option.none_or, List.find?_map]
    congr 2
    exact funext fun e => decide_eq_decide.mpr Iff.rfl
  have hmem : (k, v) ∈ h.lowerNames ↔ h.lowerNames.get k = some (k, v) :=
    ⟨fun hm => SortedSet.get_eq_some.mpr ⟨hm, rfl⟩, fun hg => (SortedSet.get_eq_some.mp hg).1⟩
  rw [hmem, hget, Option.map_eq_some_iff]
  constructor
  · rintro ⟨⟨n, w⟩, hfind, he⟩
    obtain ⟨hn, as, bs, hl, has⟩ := List.find?_eq_some_iff_append.mp hfind
    obtain ⟨rfl, rfl⟩ := Prod.mk.inj he
    refine ⟨n, ?_, rfl, fun b hb hlt => ?_⟩
    · rw [SortedSet.mem_def, hl]
      simp
    · simpa using has b ((SortedSet.mem_before hl b).mpr ⟨hb, hlt⟩)
  · rintro ⟨n, hn, rfl, hfirst⟩
    obtain ⟨as, bs, hl⟩ := List.append_of_mem (SortedSet.mem_def.mp hn)
    refine ⟨(n, v), List.find?_eq_some_iff_append.mpr ⟨by simp, as, bs, hl, fun b hb => ?_⟩, rfl⟩
    obtain ⟨hbh, hlt⟩ := (SortedSet.mem_before hl b).mp hb
    simpa using hfirst b hbh hlt

/-- No name is lost. -/
theorem exists_mem_lowerNames {h : Headers} {e : Str × Str} (he : e ∈ h) :
    ∃ v, (e.1.map tolower, v) ∈ h.lowerNames := by
  rcases SortedSet.exists_first (fun b => b.1.map tolower ≠ e.1.map tolower) h with ⟨⟨n, v⟩, hn, hk, hfirst⟩ | hall
  · exact ⟨v, mem_lowerNames_first.mpr ⟨n, hn, not_not.mp hk, hfirst⟩⟩
  · exact absurd rfl (hall e he)

theorem lower_of_mem_lowerNames {h : Headers} {e : Str × Str} (he : e ∈ h.lowerNames) : e.1.map tolower = e.1 := by
  obtain ⟨n, -, hn, -⟩ := mem_lowerNames_first.mp he
  rw [← hn, List.map_map]
  exact List.map_congr_left fun c _ => tolower_tolower c

/-- A header whose line is read back stays one in lower case. -/
theorem WireHeader.lower {e : Str × Str} (h : WireHeader e) : WireHeader (e.1.map tolower, e.2) := by
  obtain ⟨hk, hfree, hv, hfield⟩ := h
  obtain ⟨-, -, hlen, hjson⟩ := field_eq_entry hfield
  have hlow : (e.1.map tolower).map tolower = e.1.map tolower := by
    rw [List.map_map]
    exact List.map_congr_left fun c _ => tolower_tolower c
  refine wireHeader_of ?_ ?_ hv (by rwa [hlow]) (by rwa [hlow])
  · exact notMem_map_tolower (by decide) hk
  · exact free_map_tolower (by decide) (by decide) hfree

/-! ### One server after another -/

namespace Response

/-- A response whose text can be read. -/
structure Readable (r : Response) : Prop where
  proto : Plain r.proto
  message : NoEol r.message
  spaces : r.message.count (ch ' ') ≤ 65533
  headers : ∀ e ∈ r.headers, WireHeader e
  bodyFits : r.BodyFits

/-- What a client reads of the response that a callback returned. -/
def relayed (r : Response) : Response := { r with toMessage := r.serverHeaders.onWire }

variable {r : Response}

theorem Readable.serverHeaders (hr : r.Readable) : ∀ e ∈ r.serverHeaders.headers, WireHeader e := by
  intro e he
  rcases mem_serverHeaders.mp he with he | ⟨rfl, -⟩ | ⟨rfl, -⟩
  · exact hr.headers e he
  · exact wireHeader_of (by decide) (free_of_notMem_left (by decide)) (by decide) (by decide) (by decide)
  · exact wireHeader_of (by decide) (free_of_notMem_left (by decide)) (by decide) (by decide) (by decide)

theorem Readable.read (hr : r.Readable) (code₀ : Int16) :
    ∃ head body out, cut r.serverHeaders.toString = some (head, body) ∧
      ofHeadBody code₀ head body = .ok (r.relayed, out) := by
  have hcode : Free 13 10 (printInt r.code.toInt) := free_of_notMem_left (notMem_printInt (by decide))
  obtain ⟨head, hcut, out, hread⟩ := read_print (p := r.serverHeaders) hr.proto.1 hr.spaces
    (free_join (free_join hr.proto.2.free hcode) hr.message.free) hr.serverHeaders hr.bodyFits code₀
  exact ⟨head, _, out, hcut, hread⟩

/-- **What was read can be sent on.** -/
theorem Readable.relayed (hr : r.Readable) : r.relayed.Readable where
  proto := hr.proto
  message := hr.message
  spaces := hr.spaces
  headers e he := by
    obtain ⟨n, hn, hk, -⟩ := mem_lowerNames_first.mp he
    have hlow := (hr.serverHeaders _ hn).lower
    rwa [hk] at hlow
  bodyFits hc := by
    have hpay : r.relayed.body = r.body := if_pos hc
    rw [hpay]
    exact hr.bodyFits hc

/-- The header names are in lower case. -/
def LowerCase (r : Response) : Prop := ∀ e ∈ r.headers, e.1.map tolower = e.1

theorem lowerCase_relayed (r : Response) : r.relayed.LowerCase := fun _ he => lower_of_mem_lowerNames he

/-- Beside names in lower case the server's headers always find room. -/
theorem LowerCase.mem_serverHeaders (h : r.LowerCase) {e : Str × Str} :
    e ∈ r.serverHeaders.headers ↔
      e ∈ r.headers ∨ e = (str "Server", str "NiceHTTP") ∨ e = (str "Connection", str "close") := by
  have hserver : ∀ b ∈ r.headers, b.1 ≠ str "Server" := fun b hb hk =>
    absurd (hk ▸ h b hb) (by decide : (str "Server").map tolower ≠ str "Server")
  have hconn : ∀ b ∈ r.headers, b.1 ≠ str "Connection" := fun b hb hk =>
    absurd (hk ▸ h b hb) (by decide : (str "Connection").map tolower ≠ str "Connection")
  rw [NiceHttp.mem_serverHeaders, and_iff_left hserver, and_iff_left hconn]

/-- **What is read of a response with names in lower case**: the server's two
headers, and the others as they were. -/
theorem LowerCase.mem_relayed (h : r.LowerCase) {k v : Str} :
    (k, v) ∈ r.relayed.headers ↔
      (k = str "server" ∧ v = str "NiceHTTP") ∨ (k = str "connection" ∧ v = str "close") ∨
        (k ≠ str "server" ∧ k ≠ str "connection" ∧ (k, v) ∈ r.headers) := by
  have hserver : str "Server" < str "server" := by decide
  have hconn : str "Connection" < str "connection" := by decide
  show (k, v) ∈ r.serverHeaders.headers.lowerNames ↔ _
  rw [mem_lowerNames_first]
  constructor
  · rintro ⟨n, hn, hk, hfirst⟩
    rcases h.mem_serverHeaders.mp hn with hr | he | he
    · -- an entry of the response is read unless the server's spelling comes first
      obtain rfl : n = k := (h _ hr).symm.trans hk
      refine Or.inr (Or.inr ⟨?_, ?_, hr⟩)
      · rintro rfl
        exact hfirst _ (h.mem_serverHeaders.mpr (Or.inr (Or.inl rfl))) hserver (lowerName_server (str "NiceHTTP"))
      · rintro rfl
        exact hfirst _ (h.mem_serverHeaders.mpr (Or.inr (Or.inr rfl))) hconn (lowerName_connection (str "close"))
    · obtain ⟨rfl, rfl⟩ := Prod.mk.inj he
      exact Or.inl ⟨hk.symm.trans (lowerName_server (str "NiceHTTP")), rfl⟩
    · obtain ⟨rfl, rfl⟩ := Prod.mk.inj he
      exact Or.inr (Or.inl ⟨hk.symm.trans (lowerName_connection (str "close")), rfl⟩)
  · rintro (⟨rfl, rfl⟩ | ⟨rfl, rfl⟩ | ⟨hs, hc, hv⟩)
    · refine ⟨str "Server", h.mem_serverHeaders.mpr (Or.inr (Or.inl rfl)), lowerName_server (str "NiceHTTP"),
        fun b hb hlt hk => ?_⟩
      rcases h.mem_serverHeaders.mp hb with hr | rfl | rfl
      · rw [(h b hr).symm.trans hk] at hlt
        exact lt_asymm hserver hlt
      · exact lt_irrefl _ hlt
      · exact absurd hk (by decide)
    · refine ⟨str "Connection", h.mem_serverHeaders.mpr (Or.inr (Or.inr rfl)), lowerName_connection (str "close"),
        fun b hb hlt hk => ?_⟩
      rcases h.mem_serverHeaders.mp hb with hr | rfl | rfl
      · rw [(h b hr).symm.trans hk] at hlt
        exact lt_asymm hconn hlt
      · exact absurd hk (by decide)
      · exact lt_irrefl _ hlt
    · refine ⟨k, h.mem_serverHeaders.mpr (Or.inl hv), h _ hv, fun b hb hlt hk => ?_⟩
      rcases h.mem_serverHeaders.mp hb with hr | rfl | rfl
      · exact hlt.ne ((h b hr).symm.trans hk)
      · exact hs (hk.symm.trans (lowerName_server (str "NiceHTTP")))
      · exact hc (hk.symm.trans (lowerName_connection (str "close")))

/-- **From the second server on, all clients read the same response.** -/
theorem relayed_relayed (h : r.LowerCase) : r.relayed.relayed = r.relayed := by
  have hheaders : r.relayed.relayed.headers = r.relayed.headers := by
    refine SortedSet.ext_get fun k => SortedSet.get_congr fun e _ => ?_
    obtain ⟨k, v⟩ := e
    rw [(lowerCase_relayed r).mem_relayed, h.mem_relayed]
    tauto
  have hbody : r.relayed.relayed.body = r.relayed.body := by
    show (if r.contentLength ≠ 0 then if r.contentLength ≠ 0 then r.body else [] else []) =
      if r.contentLength ≠ 0 then r.body else []
    split
    · rfl
    · rfl
  have hjson : r.relayed.relayed.isJson = r.relayed.isJson := by
    show (r.isJson && decide (r.contentLength ≠ 0) && decide (r.contentLength ≠ 0)) =
      (r.isJson && decide (r.contentLength ≠ 0))
    rw [Bool.and_assoc, Bool.and_self]
  have hmessage : r.relayed.relayed.toMessage = r.relayed.toMessage := by
    calc r.relayed.relayed.toMessage
        = { r.relayed.toMessage with
            headers := r.relayed.relayed.headers
            body := r.relayed.relayed.body
            isJson := r.relayed.relayed.isJson } := rfl
      _ = r.relayed.toMessage := by rw [hheaders, hbody, hjson]
  exact congrArg (fun m => { r with toMessage := m }) hmessage

/-- **A server that hands on what it read sends each of the two names twice.** -/
theorem relayed_twice (r : Response) :
    (∃ v w, [(str "Connection", str "close"), (str "Server", str "NiceHTTP"), (str "connection", w),
        (str "server", v)] ⊆ r.relayed.serverHeaders.sentHeaders) ∧
      ¬ Unambiguous r.relayed.serverHeaders.sentHeaders := by
  have hl := lowerCase_relayed r
  have hsent : ∀ {e}, e ∈ r.relayed.serverHeaders.headers → e ∈ r.relayed.serverHeaders.sentHeaders := fun he =>
    List.mem_append_left _ he
  have hserver := hsent (hl.mem_serverHeaders.mpr (Or.inr (Or.inl rfl)))
  have hconn := hsent (hl.mem_serverHeaders.mpr (Or.inr (Or.inr rfl)))
  obtain ⟨⟨v, hv⟩, ⟨w, hw⟩⟩ := exists_serverHeader r
  obtain ⟨v', hv'⟩ := exists_mem_lowerNames hv
  obtain ⟨w', hw'⟩ := exists_mem_lowerNames hw
  have hserver' := hsent (hl.mem_serverHeaders.mpr (Or.inl hv'))
  have hconn' := hsent (hl.mem_serverHeaders.mpr (Or.inl hw'))
  have hlow : (str "Server").map tolower = str "server" := by decide
  have hlow' : (str "Connection").map tolower = str "connection" := by decide
  simp only [hlow, hlow'] at hserver' hconn'
  refine ⟨⟨v', w', ?_⟩, fun hu => ?_⟩
  · simp only [List.cons_subset, List.nil_subset, and_true]
    exact ⟨hconn, hserver, hconn', hserver'⟩
  · have hname : lowerName (str "Server", str "NiceHTTP") = lowerName (str "server", v') := by
      show (str "Server").map tolower = (str "server").map tolower
      decide
    have he := List.inj_on_of_nodup_map hu.1 hserver hserver' hname
    exact absurd (Prod.mk.inj he).1 (by decide)

end Response

/-- A callback called `request`, was answered with `r`, and handed on `r'`. -/
def HandsOn (r r' : Response) : Prop :=
  ∃ (c c' : NiceHTTP) (q : Request) (host : Str) (port code₀ : Int16) (p : Peer),
    Delivers p.received r.serverHeaders.toString ∧ c.request q host port code₀ p = some (c', .ok r')

/-- A response that `request` returns was received. -/
theorem NiceHTTP.recv_of_request {c c' : NiceHTTP} {q : Request} {host : Str} {port code₀ : Int16} {p : Peer}
    {r : Response} (h : c.request q host port code₀ p = some (c', .ok r)) :
    ∃ head body rest out, recvHttp p.received = some ((head, body), rest) ∧
      Response.ofHeadBody code₀ head body = .ok (r, out) := by
  unfold request at h
  split at h
  · cases h
  · split at h
    · split at h
      · cases h
      · rename_i head body rest hrecv
        split at h
        · cases h
        · rename_i r out hread
          cases h
          exact ⟨head, body, rest, out, hrecv, hread⟩
    · cases h

theorem HandsOn.eq {r r' : Response} (hr : r.Readable) (h : HandsOn r r') : r' = r.relayed := by
  obtain ⟨c, c', q, host, port, code₀, p, hp, hreq⟩ := h
  obtain ⟨head, body, rest, out, hrecv, hread⟩ := NiceHTTP.recv_of_request hreq
  obtain ⟨head', body', out', hcut, hread'⟩ := hr.read code₀
  obtain ⟨rfl, rfl⟩ := Prod.mk.inj (Prod.mk.inj (Option.some.inj (hrecv.symm.trans (hp.recv hcut)))).1
  exact (Prod.mk.inj (Except.ok.inj (hread.symm.trans hread'))).1

/-- Names in lower case are handed on, and nothing changes any more. -/
theorem eq_relayed_of_chain : ∀ {xs : List Response} {x : Response}, x.Readable → x.LowerCase →
    (x :: xs).IsChain HandsOn → ∀ y ∈ xs, y = x.relayed
  | [], _, _, _, _, _, hy => absurd hy List.not_mem_nil
  | y :: ys, x, hx, hl, h, z, hz => by
    obtain ⟨hstep, hrest⟩ := List.isChain_cons_cons.mp h
    obtain rfl := hstep.eq hx
    rcases List.mem_cons.mp hz with rfl | hz
    · rfl
    · rw [eq_relayed_of_chain hx.relayed (Response.lowerCase_relayed x) hrest z hz, Response.relayed_relayed hl]

/-- **A chain of servers.** Each callback answers with the response that its own
`request` returned. Every server that hands on sends two lines for `Server` and
two for `Connection`, and from the second on they all hand on the same. -/
theorem handed_on {r : Response} (hr : r.Readable) {rs : List Response} (h : (r :: rs).IsChain HandsOn) :
    (∀ x ∈ rs, (∃ v w, [(str "Connection", str "close"), (str "Server", str "NiceHTTP"), (str "connection", w),
        (str "server", v)] ⊆ x.serverHeaders.sentHeaders) ∧ ¬ Unambiguous x.serverHeaders.sentHeaders) ∧
      ∀ x ∈ rs.tail, x = r.relayed.relayed ∧ (str "server", str "NiceHTTP") ∈ x.headers ∧
        (str "connection", str "close") ∈ x.headers := by
  cases rs with
  | nil => exact ⟨fun x hx => absurd hx List.not_mem_nil, fun x hx => absurd hx List.not_mem_nil⟩
  | cons x xs =>
    obtain ⟨hstep, hrest⟩ := List.isChain_cons_cons.mp h
    obtain rfl := hstep.eq hr
    have hl := Response.lowerCase_relayed r
    have hall := eq_relayed_of_chain hr.relayed hl hrest
    constructor
    · intro x hx
      rcases List.mem_cons.mp hx with rfl | hx
      · exact Response.relayed_twice r
      · rw [hall x hx]
        exact Response.relayed_twice r.relayed
    · intro x hx
      rw [hall x hx]
      exact ⟨rfl, hl.mem_relayed.mpr (Or.inl ⟨rfl, rfl⟩), hl.mem_relayed.mpr (Or.inr (Or.inl ⟨rfl, rfl⟩))⟩

/-- A response whose text fits into one packet is handed on. -/
theorem handsOn_packet {r : Response} (hr : r.Readable) (hnul : 0 ∉ r.serverHeaders.toString)
    (hlen : r.serverHeaders.toString.length < pktBlockSize) : HandsOn r r.relayed := by
  have hpos : 0 < r.serverHeaders.toString.length := by
    rw [Response.toString_eq]
    simp
  have hp := delivers_packet ⟨r.serverHeaders.toString, hpos, hlen.le⟩ hnul hlen
  obtain ⟨head, body, out, hcut, hread⟩ := hr.read 0
  have hreaches : ({} : NiceHTTP).Reaches (str "127.0.0.1") 8090 ⟨some 5, fun _ => none, fun _ _ => true,
      [.data ⟨r.serverHeaders.toString, hpos, hlen.le⟩]⟩ := ⟨5, _, _, rfl, rfl, rfl, rfl⟩
  obtain ⟨c', hreq, -⟩ := NiceHTTP.request_answered (q := {}) hreaches (hp.recv hcut) hread
  exact ⟨{}, c', {}, _, _, 0, _, hp, hreq⟩

theorem demoResponse_readable : demoResponse.Readable :=
  ⟨⟨by decide, by decide, by decide⟩, ⟨by decide, by decide⟩, by decide,
    fun e he => absurd he (SortedSet.notMem_empty e), fun _ => Or.inl (by decide)⟩

theorem handed_on_demo :
    demoResponse.relayed.relayed.relayed = demoResponse.relayed.relayed ∧
      ¬ Unambiguous demoResponse.relayed.relayed.relayed.serverHeaders.sentHeaders := by
  have h0 := demoResponse_readable
  have hchain : [demoResponse, demoResponse.relayed, demoResponse.relayed.relayed,
      demoResponse.relayed.relayed.relayed].IsChain HandsOn :=
    .cons_cons (handsOn_packet h0 (by decide +kernel) (by decide +kernel))
      (.cons_cons (handsOn_packet h0.relayed (by decide +kernel) (by decide +kernel))
        (.cons_cons (handsOn_packet h0.relayed.relayed (by decide +kernel) (by decide +kernel)) (.singleton _)))
  obtain ⟨htwice, hsame⟩ := handed_on h0 hchain
  exact ⟨(hsame _ (by simp)).1, (htwice _ (by simp)).2⟩

end NiceHttp
