/-
# Messages and their header block

`http::Message`: the fields that requests and responses share,
`parseHeaders`, and the two pieces both constructors and both `toString`
repeat word for word (`finish`, `format`).

`parseHeaders` reads the block line by line (`parseHeader`); no line makes
`substr` throw, so the fold is total: a line is one of the four `Field`s
(`parseHeader_eq`), and the block is the fold of `put` over its fields
(`parseHeaders_eq`). The three fields that the fold writes follow three
different rules on repeated names: the first entry of a name stays
(`foldl_put_headers`), the last length counts (`foldl_put_contentLength`), one
JSON line is enough (`foldl_put_isJson`).

Key definitions: `Message`, `Message.parseHeaders`, `Message.finish`,
`Message.format`, `field`, `Message.put`, `Message.read`.
-/
import NiceHttp.Lib.Text
import NiceHttp.Lib.CString
import NiceHttp.Lib.SortedSet

namespace NiceHttp

open CString Text

/-- What leaves a call as an exception. -/
inductive Exn where
  /-- `std::out_of_range`, of `substr`. -/
  | outOfRange
  /-- `std::regex_error`, of the `std::regex` constructor. -/
  | regexError
  /-- `std::runtime_error`, of `NiceHTTP::request`. -/
  | runtimeError (what : Str)
  /-- Whatever a route's callback throws. -/
  | callback (what : Str)
  deriving DecidableEq, Repr

/-- A `size_t` computed from an integer expression: below zero it wraps. -/
def sizeT (z : ℤ) : ℕ := if 0 ≤ z then z.toNat else (z % 2 ^ 64).toNat

/-- `s.substr(pos, count)`. -/
def substr (s : Str) (pos count : ℕ) : Except Exn Str :=
  if s.length < pos then .error .outOfRange else .ok ((s.drop pos).take count)

/-- `s.substr(pos)`. -/
def substrFrom (s : Str) (pos : ℕ) : Except Exn Str :=
  if s.length < pos then .error .outOfRange else .ok (s.drop pos)

theorem substr_ok {s : Str} {pos : ℕ} (h : pos ≤ s.length) (count : ℕ) :
    substr s pos count = .ok ((s.drop pos).take count) := if_neg (by omega)

theorem substrFrom_ok {s : Str} {pos : ℕ} (h : pos ≤ s.length) : substrFrom s pos = .ok (s.drop pos) :=
  if_neg (by omega)

/-- `PROTO_HTTP1`. -/
def protoHttp1 : Str := str "HTTP/1.1"

/-- A `std::map<std::string, std::string>`. -/
abbrev Headers := SortedSet (Str × Str) (Prod.fst : Str × Str → Str)

/-- `http::Message`. -/
structure Message where
  proto : Str := []
  headers : Headers := ∅
  body : Str := []
  isJson : Bool := false
  contentLength : UInt64 := 0

namespace Message

/-- One turn of the loop of `parseHeaders`. -/
def parseHeader (m : Message) (header : Str) : Except Exn Message :=
  match find (str ": ") header with
  | none => .ok m -- invalid header, skip it
  | some i => do
    let key ← substr header 0 i
    let val ← substr header (i + 2) (sizeT (header.length - i - 3))
    let key := key.map tolower
    if key = str "content-length" then
      .ok { m with contentLength := strtoul (cstr val) }
    else if key = str "content-type" ∧ val = str "application/json" then
      .ok { m with isJson := true }
    else
      .ok { m with headers := m.headers.insert (key, val) }

/-- `Message::parseHeaders`. -/
def parseHeaders (m : Message) (headerstr : Str) : Except Exn Message :=
  (splitView (ch '\n') headerstr).foldlM parseHeader m

/-- The text printed for a body of another length than announced. -/
def lengthError (announced : UInt64) (length : ℕ) : Str :=
  str "Error in body parsing! Content length " ++ decimal announced.toNat ++ str " != body length " ++
    decimal length

/-- The end of both constructors, from the protocol check on: `i` is the place
of the first CRLF of `head`. The list is what is printed. -/
def finish (m : Message) (head : Str) (i : ℕ) (body : Str) : Except Exn (Message × List Str) := do
  let out := if m.proto ≠ protoHttp1 then [str "Protocol not supported"] else []
  let headerstr ← substrFrom head (i + 2)
  let m ← m.parseHeaders headerstr
  if m.contentLength > 0 ∧ body.length ≠ m.contentLength.toNat then
    .ok (m, out ++ [lengthError m.contentLength body.length])
  else
    .ok ({ m with body := body }, out)

/-- Both `toString`, from the end of the start line on. -/
def format (m : Message) (start endline : Str) : Str :=
  start ++ endline ++ (m.headers.toList.flatMap fun h => h.1 ++ str ": " ++ h.2 ++ endline) ++
    if m.contentLength ≠ 0 then
      str "Content-Length: " ++ decimal m.contentLength.toNat ++ endline ++
        (if m.isJson then str "Content-Type: application/json" ++ endline else []) ++ endline ++ m.body
    else endline

/-- The line end that the flag of `toString` selects. -/
def endline (carriageReturn : Bool) : Str := if carriageReturn then str "\r\n" else str "\n"

end Message

/-! ### The lines of a header block -/

/-- What a header line does to the message. -/
inductive Field where
  | skip
  | length (val : Str)
  | json
  | entry (key val : Str)
  deriving DecidableEq

/-- The text of a line before its first `": "`, in lower case. -/
def fieldName (header : Str) : Option Str :=
  (find (str ": ") header).map fun i => (header.take i).map tolower

/-- The text of a line after its first `": "`, without the last letter. -/
def fieldValue (header : Str) : Str :=
  match find (str ": ") header with
  | none => []
  | some i => (header.drop (i + 2)).dropLast

/-- The line as a field. -/
def field (header : Str) : Field :=
  match fieldName header with
  | none => .skip
  | some key =>
    if key = str "content-length" then .length (fieldValue header)
    else if key = str "content-type" ∧ fieldValue header = str "application/json" then .json
    else .entry key (fieldValue header)

/-- The value of a `content-length` line, if the field is one. -/
def Field.length? : Field → Option Str
  | .length v => some v
  | _ => none

/-- The header of a line that goes into the map, if the field is one. -/
def Field.header? : Field → Option (Str × Str)
  | .entry k v => some (k, v)
  | _ => none

/-- What a field does to the message. -/
def Message.put (m : Message) : Field → Message
  | .skip => m
  | .length v => { m with contentLength := strtoul (cstr v) }
  | .json => { m with isJson := true }
  | .entry k v => { m with headers := m.headers.insert (k, v) }

@[simp] theorem colon_eq : str ": " = [58, 32] := by decide

@[simp] theorem crlf_eq : str "\r\n" = [13, 10] := by decide

@[simp] theorem lf_eq : ch '\n' = 10 := by decide

@[simp] theorem space_eq : ch ' ' = 32 := by decide

theorem find_colon_le {header : Str} {i : ℕ} (h : find (str ": ") header = some i) :
    i + 2 ≤ header.length := find_pair_le h

theorem find_crlf_le {head : Str} {i : ℕ} (h : find (str "\r\n") head = some i) : i + 2 ≤ head.length :=
  find_pair_le h

/-- The count of the second `substr` wraps only when nothing follows the
`": "`; what is cut is the rest of the line without its last letter. -/
theorem take_sizeT {header : Str} {i : ℕ} (h : i + 2 ≤ header.length) :
    (header.drop (i + 2)).take (sizeT (header.length - i - 3)) = (header.drop (i + 2)).dropLast := by
  rcases Nat.eq_or_lt_of_le h with he | hlt
  · rw [List.drop_eq_nil_of_le he.ge]
    simp
  · have hs : sizeT (header.length - i - 3) = header.length - i - 3 := by
      rw [sizeT, if_pos (by omega)]
      omega
    rw [hs, List.dropLast_eq_take, List.length_drop]
    congr 1

/-- **A line never throws, and does what its field says.** -/
theorem parseHeader_eq (m : Message) (header : Str) : m.parseHeader header = .ok (m.put (field header)) := by
  unfold Message.parseHeader field fieldName fieldValue
  cases hf : find (str ": ") header with
  | none => rfl
  | some i =>
    have hi := find_colon_le hf
    simp only [substr_ok (Nat.zero_le _), substr_ok hi, take_sizeT hi, List.drop_zero, Option.map_some,
      bind, Except.bind]
    split
    · rfl
    · split <;> rfl

/-- The header block, read on top of the message. -/
def Message.read (m : Message) (headerstr : Str) : Message :=
  ((splitView (ch '\n') headerstr).map field).foldl Message.put m

/-- **The header block is the fold over its fields.** -/
theorem parseHeaders_eq (m : Message) (headerstr : Str) : m.parseHeaders headerstr = .ok (m.read headerstr) := by
  unfold Message.parseHeaders Message.read
  generalize splitView (ch '\n') headerstr = lines
  induction lines generalizing m with
  | nil => rfl
  | cons l ls ih =>
    rw [List.foldlM_cons, parseHeader_eq]
    exact ih (m.put (field l))

/-! ### Line by line -/

/-- Reading a block line by line; a last empty line does nothing. -/
theorem read_eq (m : Message) (s : Str) : m.read s = ((s.splitOn (ch '\n')).map field).foldl Message.put m := by
  unfold Message.read
  rcases eq_or_ne s [] with rfl | h
  · rfl
  · rw [splitView_of_ne_nil _ h]

/-- A block is read up to an LF, and then the rest. -/
theorem read_append (m : Message) (a b : Str) : m.read (a ++ ch '\n' :: b) = (m.read a).read b := by
  rw [read_eq, read_eq, read_eq m, List.splitOn_append_cons_self, List.map_append, List.foldl_append]

theorem read_line (m : Message) {l : Str} (h : ch '\n' ∉ l) : m.read l = m.put (field l) := by
  rw [read_eq, List.splitOn_eq_singleton h]
  rfl

/-! ### What the fold leaves -/

theorem foldl_put_proto : ∀ (fs : List Field) (m : Message), (fs.foldl Message.put m).proto = m.proto
  | [], _ => rfl
  | f :: fs, m => by
    rw [List.foldl_cons, foldl_put_proto fs]
    cases f <;> rfl

theorem foldl_put_body : ∀ (fs : List Field) (m : Message), (fs.foldl Message.put m).body = m.body
  | [], _ => rfl
  | f :: fs, m => by
    rw [List.foldl_cons, foldl_put_body fs]
    cases f <;> rfl

/-- The entries go into the map, in their order. -/
theorem foldl_put_headers : ∀ (fs : List Field) (m : Message),
    (fs.foldl Message.put m).headers = m.headers.insertAll (fs.filterMap Field.header?)
  | [], _ => rfl
  | f :: fs, m => by
    rw [List.foldl_cons, foldl_put_headers fs]
    cases f <;> rfl

/-- One JSON line sets the flag. -/
theorem foldl_put_isJson : ∀ (fs : List Field) (m : Message),
    (fs.foldl Message.put m).isJson = (m.isJson || fs.contains .json)
  | [], m => by simp
  | f :: fs, m => by
    rw [List.foldl_cons, foldl_put_isJson fs]
    cases f <;> simp [Message.put]

/-- The last length counts. -/
theorem foldl_put_contentLength : ∀ (fs : List Field) (m : Message),
    (fs.foldl Message.put m).contentLength =
      (((fs.filterMap Field.length?).getLast?).map fun v => strtoul (cstr v)).getD m.contentLength
  | [], _ => rfl
  | f :: fs, m => by
    rw [List.foldl_cons, foldl_put_contentLength fs]
    cases f with
    | length v =>
      simp only [List.filterMap_cons, Field.length?, List.getLast?_cons, Option.map_some, Option.getD_some]
      cases (fs.filterMap Field.length?).getLast? <;> rfl
    | skip => rfl
    | json => rfl
    | entry k v => rfl

@[simp] theorem read_proto (m : Message) (headerstr : Str) : (m.read headerstr).proto = m.proto :=
  foldl_put_proto _ m

/-- The body length that a head announces, none being 0. -/
def announced (head : Str) : ℕ :=
  match find (str "\r\n") head with
  | none => 0
  | some i => (({} : Message).read (head.drop (i + 2))).contentLength.toNat

/-- The length that a message reads is that of the head, whatever its protocol. -/
theorem read_contentLength {head : Str} {i : ℕ} (h : find (str "\r\n") head = some i) (proto : Str) :
    (({ proto := proto } : Message).read (head.drop (i + 2))).contentLength.toNat = announced head := by
  unfold announced Message.read
  simp only [h, foldl_put_contentLength]

/-! ### The end of the constructors -/

/-- The announced length is another than the body's. -/
abbrev Message.Mismatch (m : Message) (body : Str) : Prop :=
  m.contentLength > 0 ∧ body.length ≠ m.contentLength.toNat

/-- The body goes in, unless the message announces another length. -/
def Message.withBody (m : Message) (body : Str) : Message := if m.Mismatch body then m else { m with body := body }

/-- The message that a constructor ends with. -/
def Message.parsed (proto headerstr body : Str) : Message :=
  (({ proto := proto } : Message).read headerstr).withBody body

@[simp] theorem parsed_proto (proto headerstr body : Str) :
    (Message.parsed proto headerstr body).proto = proto := by
  unfold Message.parsed Message.withBody
  split <;> exact read_proto _ _

@[simp] theorem parsed_headers (proto headerstr body : Str) :
    (Message.parsed proto headerstr body).headers = (({ proto := proto } : Message).read headerstr).headers := by
  unfold Message.parsed Message.withBody
  split <;> rfl

/-- What the end of a constructor prints. -/
def Message.report (m : Message) (body : Str) : List Str :=
  (if m.proto ≠ protoHttp1 then [str "Protocol not supported"] else []) ++
    if m.Mismatch body then [Message.lengthError m.contentLength body.length] else []

/-- **The end of a constructor never throws.** -/
theorem finish_eq (m : Message) {head : Str} {i : ℕ} (h : i + 2 ≤ head.length) (body : Str) :
    m.finish head i body =
      .ok ((m.read (head.drop (i + 2))).withBody body, (m.read (head.drop (i + 2))).report body) := by
  unfold Message.finish
  simp only [substrFrom_ok h, parseHeaders_eq, bind, Except.bind]
  by_cases hm : (m.read (head.drop (i + 2))).Mismatch body
  · rw [if_pos hm, Message.withBody, if_pos hm, Message.report, if_pos hm, read_proto]
  · rw [if_neg hm, Message.withBody, if_neg hm, Message.report, if_neg hm, read_proto, List.append_nil]

end NiceHttp
