/-
# Where the parsers cut their strings

Each `substr` that `Request(head, body)` and `parseHeaders` make starts within
its string, so none throws, whatever was received (`request_parser_total`). To say
it of every call the two are written once more with a log of the calls; without
the log they are the same (`Request.result_ofHeadBodyLogged`).

The count of a value is computed without sign: with nothing behind the `": "`
of a line it is -1 and comes round to 2^64 - 1, and the value is empty
(`substr_value`).

Key definitions: `SubstrCall`, `Message.parseHeadersLogged`,
`Request.ofHeadBodyLogged`.
-/
import NiceHttp.Request
import NiceHttp.Lib.Logged

namespace NiceHttp

open CString Text Logged

/-- A call of `substr`: the string, and the position where it starts. -/
structure SubstrCall where
  text : Str
  pos : ℕ

/-- The position is not behind the end of the string. -/
def SubstrCall.InRange (c : SubstrCall) : Prop := c.pos ≤ c.text.length

def substrLogged (s : Str) (pos count : ℕ) : Logged SubstrCall Exn Str := call ⟨s, pos⟩ (substr s pos count)

def substrFromLogged (s : Str) (pos : ℕ) : Logged SubstrCall Exn Str := call ⟨s, pos⟩ (substrFrom s pos)

theorem all_substrLogged {s : Str} {pos : ℕ} (h : pos ≤ s.length) (count : ℕ) :
    All SubstrCall.InRange (substrLogged s pos count) :=
  have hin : SubstrCall.InRange ⟨s, pos⟩ := h
  All.call hin _

theorem all_substrFromLogged {s : Str} {pos : ℕ} (h : pos ≤ s.length) :
    All SubstrCall.InRange (substrFromLogged s pos) :=
  have hin : SubstrCall.InRange ⟨s, pos⟩ := h
  All.call hin _

/-! ### The parsers with a log -/

namespace Message

/-- One turn of the loop of `parseHeaders`. -/
def parseHeaderLogged (m : Message) (header : Str) : Logged SubstrCall Exn Message :=
  match find (str ": ") header with
  | none => pure m
  | some i => do
    let key ← substrLogged header 0 i
    let val ← substrLogged header (i + 2) (sizeT (header.length - i - 3))
    let key := key.map tolower
    if key = str "content-length" then
      pure { m with contentLength := strtoul (cstr val) }
    else if key = str "content-type" ∧ val = str "application/json" then
      pure { m with isJson := true }
    else
      pure { m with headers := m.headers.insert (key, val) }

/-- `Message::parseHeaders`. -/
def parseHeadersLogged (m : Message) (headerstr : Str) : Logged SubstrCall Exn Message :=
  (splitView (ch '\n') headerstr).foldlM parseHeaderLogged m

/-- The end of both constructors. -/
def finishLogged (m : Message) (head : Str) (i : ℕ) (body : Str) :
    Logged SubstrCall Exn (Message × List Str) := do
  let out := if m.proto ≠ protoHttp1 then [str "Protocol not supported"] else []
  let headerstr ← substrFromLogged head (i + 2)
  let m ← m.parseHeadersLogged headerstr
  if m.contentLength > 0 ∧ body.length ≠ m.contentLength.toNat then
    pure (m, out ++ [lengthError m.contentLength body.length])
  else
    pure ({ m with body := body }, out)

theorem result_parseHeaderLogged (m : Message) (header : Str) :
    result (m.parseHeaderLogged header) = m.parseHeader header := by
  unfold parseHeaderLogged parseHeader
  cases find (str ": ") header with
  | none => rfl
  | some i =>
    simp only [result_bind, substrLogged, result_call]
    refine bind_congr fun key => bind_congr fun val => ?_
    split
    · rfl
    · split <;> rfl

theorem result_parseHeadersLogged (m : Message) (headerstr : Str) :
    result (m.parseHeadersLogged headerstr) = m.parseHeaders headerstr := by
  simp only [parseHeadersLogged, parseHeaders, result_foldlM, result_parseHeaderLogged]

theorem result_finishLogged (m : Message) (head : Str) (i : ℕ) (body : Str) :
    result (m.finishLogged head i body) = m.finish head i body := by
  unfold finishLogged finish
  simp only [result_bind, substrFromLogged, result_call, result_parseHeadersLogged]
  refine bind_congr fun headerstr => bind_congr fun m' => ?_
  split <;> rfl

/-- The calls on a line start within it. -/
theorem all_parseHeaderLogged (m : Message) (header : Str) :
    All SubstrCall.InRange (m.parseHeaderLogged header) := by
  unfold parseHeaderLogged
  split
  · exact All.pure m
  · rename_i i hi
    refine (all_substrLogged (Nat.zero_le _) _).bind fun key _ => ?_
    refine (all_substrLogged (find_colon_le hi) _).bind fun val _ => ?_
    simp only
    split
    · exact All.pure _
    · split
      · exact All.pure _
      · exact All.pure _

theorem all_parseHeadersLogged (m : Message) (headerstr : Str) :
    All SubstrCall.InRange (m.parseHeadersLogged headerstr) :=
  All.foldlM (fun m' header _ => m'.all_parseHeaderLogged header) m

theorem all_finishLogged (m : Message) {head : Str} {i : ℕ} (h : i + 2 ≤ head.length) (body : Str) :
    All SubstrCall.InRange (m.finishLogged head i body) := by
  refine (all_substrFromLogged h).bind fun headerstr _ => (m.all_parseHeadersLogged headerstr).bind fun m' _ => ?_
  split
  · exact All.pure _
  · exact All.pure _

end Message

namespace Request

/-- `Request::Request(head, body)`. -/
def ofHeadBodyLogged (head body : Str) : Logged SubstrCall Exn (Request × List Str) :=
  match find (str "\r\n") head with
  | none => pure ({}, [str "Malformed request"])
  | some i => do
    let line ← substrLogged head 0 i
    let r := readWords line
    let (m, out) ← r.toMessage.finishLogged head i body
    pure ({ r with toMessage := m }, out)

/-- **Without the log this is the constructor.** -/
theorem result_ofHeadBodyLogged (head body : Str) :
    result (ofHeadBodyLogged head body) = ofHeadBody head body := by
  unfold ofHeadBodyLogged ofHeadBody
  cases find (str "\r\n") head with
  | none => rfl
  | some i =>
    simp only [result_bind, substrLogged, result_call, Message.result_finishLogged]
    rfl

theorem all_ofHeadBodyLogged (head body : Str) : All SubstrCall.InRange (ofHeadBodyLogged head body) := by
  unfold ofHeadBodyLogged
  split
  · exact All.pure _
  · rename_i i hi
    refine (all_substrLogged (Nat.zero_le _) _).bind fun line _ => ?_
    exact ((readWords line).toMessage.all_finishLogged (find_crlf_le hi) body).bind fun mo _ => All.pure _

end Request

/-! ### The value of a line -/

/-- The line ends with its first `": "` exactly if there is nothing behind it. -/
theorem eq_take_colon_iff {header : Str} {i : ℕ} (h : find (str ": ") header = some i) :
    header = header.take i ++ str ": " ↔ header.length = i + 2 := by
  have hlen : (str ": ").length = 2 := rfl
  have hsplit := find_split h
  rw [hlen] at hsplit
  constructor
  · intro he
    have := find_colon_le h
    have hl := congrArg List.length he
    rw [List.length_append, List.length_take, hlen] at hl
    omega
  · intro hl
    rwa [List.drop_eq_nil_of_le hl.le, List.append_nil] at hsplit

/-- **The count of a value** is that of the letters behind the `": "` but for
the last, and comes round exactly if there are none. -/
theorem substr_value {header : Str} {i : ℕ} (h : find (str ": ") header = some i) :
    ((sizeT (header.length - i - 3) : ℤ) ≠ header.length - i - 3 ↔ header = header.take i ++ str ": ") ∧
      ∃ val, substr header (i + 2) (sizeT (header.length - i - 3)) = .ok val ∧
        if header = header.take i ++ str ": " then sizeT (header.length - i - 3) = 2 ^ 64 - 1 ∧ val = []
        else (val.length : ℤ) = header.length - i - 3 := by
  have hle := find_colon_le h
  by_cases he : header = header.take i ++ str ": "
  · have hlen := (eq_take_colon_iff h).mp he
    have hcount : sizeT (header.length - i - 3) = 2 ^ 64 - 1 := by
      have hneg : (header.length : ℤ) - i - 3 = -1 := by omega
      rw [hneg]
      rfl
    refine ⟨⟨fun _ => he, fun _ => by rw [hcount]; omega⟩, _, substr_ok hle _, ?_⟩
    rw [if_pos he, List.drop_eq_nil_of_le hlen.le]
    exact ⟨hcount, List.take_nil⟩
  · have hlen : header.length ≠ i + 2 := fun hl => he ((eq_take_colon_iff h).mpr hl)
    have hcount : (sizeT (header.length - i - 3) : ℤ) = header.length - i - 3 := by
      rw [sizeT, if_pos (by omega)]
      omega
    refine ⟨⟨fun hne => absurd hcount hne, fun h' => absurd h' he⟩, _, substr_ok hle _, ?_⟩
    rw [if_neg he, List.length_take, List.length_drop]
    omega

/-- **The request parser never throws, whatever it is given**: its calls of
`substr`, and those of `parseHeaders`, start within their strings; and the count
of a value comes round exactly on a line that ends with its first `": "`, where
the value is empty. -/
theorem request_parser_total (head body : Str) :
    (∃ r out, Request.ofHeadBody head body = .ok (r, out)) ∧
      (result (Request.ofHeadBodyLogged head body) = Request.ofHeadBody head body ∧
        ∀ c ∈ calls (Request.ofHeadBodyLogged head body), c.pos ≤ c.text.length) ∧
      (∀ (m : Message) (headerstr : Str), result (m.parseHeadersLogged headerstr) = m.parseHeaders headerstr ∧
        ∀ c ∈ calls (m.parseHeadersLogged headerstr), c.pos ≤ c.text.length) ∧
      ∀ header i, find (str ": ") header = some i →
        ((sizeT (header.length - i - 3) : ℤ) ≠ header.length - i - 3 ↔ header = header.take i ++ str ": ") ∧
          ∃ val, substr header (i + 2) (sizeT (header.length - i - 3)) = .ok val ∧
            if header = header.take i ++ str ": " then sizeT (header.length - i - 3) = 2 ^ 64 - 1 ∧ val = []
            else (val.length : ℤ) = header.length - i - 3 :=
  ⟨Request.ofHeadBody_ok head body,
    ⟨Request.result_ofHeadBodyLogged head body, Request.all_ofHeadBodyLogged head body⟩,
    fun m headerstr => ⟨m.result_parseHeadersLogged headerstr, m.all_parseHeadersLogged headerstr⟩,
    fun _ _ h => substr_value h⟩

/-- The value of a line that ends with its `": "`. -/
theorem request_parser_total_empty :
    ∃ val, substr (str "a: ") (1 + 2) (sizeT ((str "a: ").length - 1 - 3)) = .ok val ∧
      if str "a: " = (str "a: ").take 1 ++ str ": " then
        sizeT ((str "a: ").length - 1 - 3) = 2 ^ 64 - 1 ∧ val = []
      else (val.length : ℤ) = (str "a: ").length - 1 - 3 :=
  ((request_parser_total [] []).2.2.2 (str "a: ") 1 (by decide)).2

end NiceHttp
