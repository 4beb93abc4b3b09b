/-
# The header lines of an answer

`parsereq` adds `Server` and `Connection` to the headers that the callback
returned and prints them. The map tells names by their case and its `insert`
does not overwrite, so an entry that the callback spelled in another case is
printed beside the server's own, and one that it spelled the same way stays as
it is. `toString` writes every text as it is, so a line break in one makes
further lines, and an empty line ends the head before the server's own lines.
`unambiguous_iff` says when the lines of the text are unambiguous.

Key definitions: `headFields`, `Unambiguous`, `Response.ownFields`,
`Response.Gains`, `Response.Compatible`.
-/
import NiceHttp.Parsereq
import NiceHttp.Fields
import Mathlib.Data.List.DropRight

namespace NiceHttp

open CString Text

/-- The name of a header, in lower case. -/
def lowerName (e : Str × Str) : Str := e.1.map tolower

/-- The header line of an entry. -/
def headerLine (e : Str × Str) : Str := e.1 ++ str ": " ++ e.2

/-- The header lines that `toString` prints of the length and the flag. -/
def Message.payloadHeaders (m : Message) : List (Str × Str) :=
  if m.contentLength ≠ 0 then
    (str "Content-Length", decimal m.contentLength.toNat) ::
      if m.isJson then [(str "Content-Type", str "application/json")] else []
  else []

/-- The names and values of the header lines that `toString` prints. -/
def Message.sentHeaders (m : Message) : List (Str × Str) := m.headers.toList ++ m.payloadHeaders

/-- No two lines of one name, and one `Connection` line, with the value `close`. -/
def Unambiguous (hs : List (Str × Str)) : Prop :=
  (hs.map lowerName).Nodup ∧ (hs.filter fun e => lowerName e = str "connection").map Prod.snd = [str "close"]

/-- The start line of a printed response. -/
def Response.startLine (r : Response) : Str := r.proto ++ str " " ++ printInt r.code.toInt ++ str " " ++ r.message

theorem headerLines_eq (m : Message) : m.headerLines = m.sentHeaders.map headerLine := by
  unfold Message.headerLines Message.sentHeaders Message.payloadHeaders
  rw [List.map_append]
  congr 1
  split
  · split <;> rfl
  · rfl

/-- **The text of a response** is its start line, the lines of `sentHeaders`, an
empty line and the payload. -/
theorem Response.toString_eq (r : Response) :
    r.toString = block 13 10 (r.startLine :: r.sentHeaders.map headerLine) ++ 13 :: 10 :: r.payload := by
  rw [← headerLines_eq]
  exact format_eq r.toMessage r.startLine

/-! ### Reading the head of a text -/

/-- A value without the blanks around it. -/
def trim (s : Str) : Str := (s.dropWhile fun c => Blank c).rdropWhile fun c => Blank c

/-- A line without the CR at its end. -/
def dropCr (l : Str) : Str := if l.getLast? = some (ch '\r') then l.dropLast else l

/-- The lines of a text, which LF or CRLF ends. -/
def textLines (s : Str) : List Str := (s.splitOn (ch '\n')).map dropCr

/-- A header line: the name before its first colon, and the value behind it. -/
def headerField (l : Str) : Option (Str × Str) :=
  if ch ':' ∈ l then some (l.takeWhile (· ≠ ch ':'), trim (l.dropWhile (· ≠ ch ':')).tail) else none

/-- The header lines up to the empty line. -/
def fieldsOf (ls : List Str) : List (Str × Str) := (ls.takeWhile (· ≠ [])).filterMap headerField

/-- The header lines of a text: those behind its first line, up to the empty one. -/
def headFields (s : Str) : List (Str × Str) := fieldsOf (textLines s).tail

/-- The lines that a reader finds where a line is printed: more than one if an
LF is in it. -/
def sublines (l : Str) : List Str := textLines (l ++ [ch '\r'])

theorem textLines_append (a b : Str) : textLines (a ++ ch '\n' :: b) = textLines a ++ textLines b := by
  unfold textLines
  rw [List.splitOn_append_cons_self, List.map_append]

theorem textLines_block : ∀ (ls : List Str) (s : Str),
    textLines (block 13 10 ls ++ s) = ls.flatMap sublines ++ textLines s
  | [], _ => rfl
  | l :: ls, s => by
    have hline : block 13 10 (l :: ls) ++ s = (l ++ [ch '\r']) ++ ch '\n' :: (block 13 10 ls ++ s) := by
      rw [block_cons, List.append_assoc, List.append_assoc]
      rfl
    rw [hline, textLines_append, textLines_block ls s, List.flatMap_cons, List.append_assoc]
    rfl

theorem sublines_ne_nil (l : Str) : sublines l ≠ [] := by
  unfold sublines textLines
  rw [ne_eq, List.map_eq_nil_iff]
  exact List.splitOn_ne_nil _ _

/-- A line without LF is read as it is. -/
theorem sublines_eq {l : Str} (h : ch '\n' ∉ l) : sublines l = [l] := by
  have hlf : ch '\n' ∉ l ++ [ch '\r'] := by
    rw [List.mem_append, not_or]
    exact ⟨h, by decide⟩
  rw [sublines, textLines, List.splitOn_eq_singleton hlf, List.map_singleton, dropCr, List.getLast?_concat, if_pos rfl,
    List.dropLast_concat]

/-- Nothing is read behind an empty line. -/
theorem fieldsOf_of_mem {ls : List Str} (h : [] ∈ ls) (ks : List Str) : fieldsOf (ls ++ ks) = fieldsOf ls := by
  obtain ⟨as, bs, rfl⟩ := List.append_of_mem h
  have hstop : ∀ cs : List Str, (as ++ [] :: cs).takeWhile (· ≠ []) = as.takeWhile (· ≠ []) := fun cs => by
    rw [List.takeWhile_append]
    split
    · rename_i hall
      rw [List.takeWhile_cons_of_neg (by simp), List.append_nil]
      exact ((List.takeWhile_prefix _).eq_of_length hall).symm
    · rfl
  unfold fieldsOf
  rw [List.append_assoc, List.cons_append, hstop, hstop]

theorem fieldsOf_of_notMem {ls : List Str} (h : [] ∉ ls) (ks : List Str) :
    fieldsOf (ls ++ ks) = ls.filterMap headerField ++ fieldsOf ks := by
  unfold fieldsOf
  rw [List.takeWhile_append_of_pos, List.filterMap_append]
  exact fun l hl => decide_eq_true fun (h0 : l = []) => h (h0 ▸ hl)

/-- The header lines of a block of lines, which an empty line ends. -/
theorem headFields_block (start : Str) (ls : List Str) (payload : Str) :
    headFields (block 13 10 (start :: ls) ++ 13 :: 10 :: payload) =
      fieldsOf ((sublines start).tail ++ ls.flatMap sublines) := by
  have hend : textLines (13 :: 10 :: payload) = [] :: textLines payload := textLines_append [13] payload
  rw [headFields, textLines_block, hend, List.flatMap_cons, List.append_assoc,
    List.tail_append_of_ne_nil (sublines_ne_nil start), ← List.append_assoc]
  by_cases h : [] ∈ (sublines start).tail ++ ls.flatMap sublines
  · exact fieldsOf_of_mem h _
  · have hnil : fieldsOf ([] :: textLines payload) = fieldsOf [] := rfl
    have happ := fieldsOf_of_notMem h []
    rw [List.append_nil] at happ
    rw [fieldsOf_of_notMem h, hnil, happ]

/-- A header line among the lines of a head, if no empty line is before it. -/
theorem fieldsOf_middle {as bs : List Str} {l : Str} {e : Str × Str} (h : [] ∉ as) (hl : l ≠ [])
    (he : headerField l = some e) : (fieldsOf (as ++ l :: bs)).Perm (e :: fieldsOf (as ++ bs)) := by
  have hcons : fieldsOf (l :: bs) = e :: fieldsOf bs := by
    unfold fieldsOf
    rw [List.takeWhile_cons_of_pos (by simpa using hl), List.filterMap_cons_some he]
  rw [fieldsOf_of_notMem h, fieldsOf_of_notMem h, hcons]
  exact List.perm_middle

/-- The header lines that the texts of a response make: line breaks in its start
line and in its headers count, and an empty line among them is the last. -/
def Response.ownFields (r : Response) : List (Str × Str) :=
  fieldsOf ((sublines r.startLine).tail ++ (r.sentHeaders.map headerLine).flatMap sublines)

/-- **The header lines of a printed response.** -/
theorem Response.headFields_toString (r : Response) : headFields r.toString = r.ownFields := by
  rw [toString_eq, headFields_block]
  rfl

/-! ### Names told apart by their case -/

section Names

variable {r : Response}

/-- The header names that a callback may return: pairwise different without
their case, and none that `toString` prints itself. -/
structure Response.OwnNames (r : Response) : Prop where
  nodup : (r.headers.toList.map lowerName).Nodup
  free : ∀ e ∈ r.headers, lowerName e ≠ str "content-length" ∧ lowerName e ≠ str "content-type"

/-- The names that the server adds have its spelling, and `Connection` its value. -/
def Response.ServerSpelling (r : Response) : Prop :=
  ∀ e ∈ r.headers, (lowerName e = str "server" → e.1 = str "Server") ∧
    (lowerName e = str "connection" → e.1 = str "Connection" ∧ trim e.2 = str "close")

theorem lowerName_server (v : Str) : lowerName (str "Server", v) = str "server" :=
  (by decide : (str "Server").map tolower = str "server")

theorem lowerName_connection (v : Str) : lowerName (str "Connection", v) = str "connection" :=
  (by decide : (str "Connection").map tolower = str "connection")

/-- What the map holds after the two insertions. -/
theorem mem_serverHeaders {e : Str × Str} :
    e ∈ r.serverHeaders.headers ↔ e ∈ r.headers ∨
      (e = (str "Server", str "NiceHTTP") ∧ ∀ b ∈ r.headers, b.1 ≠ str "Server") ∨
      (e = (str "Connection", str "close") ∧ ∀ b ∈ r.headers, b.1 ≠ str "Connection") := by
  have hne : str "Server" ≠ str "Connection" := by decide
  have hconn : (∀ b ∈ r.headers.insert (str "Server", str "NiceHTTP"), b.1 ≠ str "Connection") ↔
      ∀ b ∈ r.headers, b.1 ≠ str "Connection" := by
    constructor
    · exact fun h b hb => h b (SortedSet.mem_insert.mpr (Or.inl hb))
    · intro h b hb
      rcases SortedSet.mem_insert.mp hb with hb | ⟨rfl, -⟩
      · exact h b hb
      · exact hne
  unfold Response.serverHeaders
  rw [SortedSet.mem_insert, SortedSet.mem_insert, or_assoc]
  exact or_congr_right (or_congr_right (and_congr_right fun _ => hconn))

/-- Each of the two names is in the map, spelled as the server does. -/
theorem exists_serverHeader (r : Response) :
    (∃ v, (str "Server", v) ∈ r.serverHeaders.headers) ∧ ∃ v, (str "Connection", v) ∈ r.serverHeaders.headers := by
  obtain ⟨⟨k, v⟩, hv, rfl⟩ := SortedSet.exists_mem_insert r.headers (str "Server", str "NiceHTTP")
  obtain ⟨⟨k, w⟩, hw, rfl⟩ := SortedSet.exists_mem_insert
    (r.headers.insert (str "Server", str "NiceHTTP")) (str "Connection", str "close")
  exact ⟨⟨v, SortedSet.mem_insert.mpr (Or.inl hv)⟩, w, hw⟩

/-- The lines of the length and the flag have two names. -/
theorem payloadHeaders_names (m : Message) :
    (m.payloadHeaders.map lowerName).Sublist [str "content-length", str "content-type"] := by
  have hlen : ∀ v, lowerName (str "Content-Length", v) = str "content-length" := fun v =>
    (by decide : (str "Content-Length").map tolower = str "content-length")
  have htype : ∀ v, lowerName (str "Content-Type", v) = str "content-type" := fun v =>
    (by decide : (str "Content-Type").map tolower = str "content-type")
  unfold Message.payloadHeaders
  split
  · rw [List.map_cons, hlen]
    split
    · rw [List.map_singleton, htype]
    · exact List.Sublist.cons_cons _ (List.nil_sublist _)
  · exact List.nil_sublist _

end Names

/-! ### Two more lines -/

theorem Unambiguous.perm {hs ks : List (Str × Str)} (h : hs.Perm ks) (hu : Unambiguous hs) : Unambiguous ks := by
  obtain ⟨hnd, hconn⟩ := hu
  refine ⟨(h.map lowerName).nodup_iff.mp hnd, ?_⟩
  have hvals := (h.filter fun e => lowerName e = str "connection").map Prod.snd
  rw [hconn] at hvals
  exact List.perm_singleton.mp hvals.symm

theorem unambiguous_perm {hs ks : List (Str × Str)} (h : hs.Perm ks) : Unambiguous hs ↔ Unambiguous ks :=
  ⟨.perm h, .perm h.symm⟩

theorem notMem_names {hs : List (Str × Str)} {k : Str} : k ∉ hs.map lowerName ↔ ∀ e ∈ hs, lowerName e ≠ k := by
  rw [List.mem_map, not_exists]
  exact forall_congr' fun e => not_and

theorem unambiguous_server {hs : List (Str × Str)} : Unambiguous ((str "Server", str "NiceHTTP") :: hs) ↔
    (∀ e ∈ hs, lowerName e ≠ str "server") ∧ Unambiguous hs := by
  have hne : lowerName (str "Server", str "NiceHTTP") ≠ str "connection" := by decide
  unfold Unambiguous
  rw [List.map_cons, List.nodup_cons, List.filter_cons_of_neg (by simpa using hne), lowerName_server, notMem_names,
    and_assoc]

theorem unambiguous_connection {hs : List (Str × Str)} : Unambiguous ((str "Connection", str "close") :: hs) ↔
    (∀ e ∈ hs, lowerName e ≠ str "connection") ∧ (hs.map lowerName).Nodup := by
  have hname := lowerName_connection (str "close")
  unfold Unambiguous
  rw [List.map_cons, List.nodup_cons, hname, notMem_names, List.filter_cons_of_pos (by simpa using hname), and_assoc]
  refine and_congr_right fun h => ?_
  have hfilter : (hs.filter fun e => lowerName e = str "connection") = [] :=
    List.filter_eq_nil_iff.mpr fun e he => by simpa using h e he
  rw [hfilter]
  exact and_iff_left rfl

/-- The response with one header more, unless its name is there. -/
def Response.addHeader (r : Response) (e : Str × Str) : Response := { r with headers := r.headers.insert e }

/-- A line of this name is added, and no empty line ends the head before it. -/
def Response.Gains (r : Response) (k : Str) : Prop :=
  (∀ e ∈ r.headers, e.1 ≠ k) ∧ [] ∉ (sublines r.startLine).tail ∧
    ∀ e ∈ r.headers, e.1 < k → [] ∉ sublines (headerLine e)

instance {r : Response} {k : Str} : Decidable (r.Gains k) := inferInstanceAs (Decidable (_ ∧ _ ∧ _))

/-- The header line that the answer has for an entry of the server. -/
def Response.gained (r : Response) (e : Str × Str) : List (Str × Str) := if r.Gains e.1 then [e] else []

/-- Where a header with a new name goes. -/
theorem Response.exists_split {r : Response} {a : Str × Str} (hkey : ∀ e ∈ r.headers, e.1 ≠ a.1) :
    ∃ hs ks, r.sentHeaders = hs ++ ks ∧ (r.addHeader a).sentHeaders = hs ++ a :: ks ∧
      ([] ∉ (sublines r.startLine).tail ++ (hs.map headerLine).flatMap sublines ↔ r.Gains a.1) := by
  obtain ⟨l₁, l₂, hlist, hins, h₁, h₂⟩ := SortedSet.toList_insert (s := r.headers) (a := a) hkey
  refine ⟨l₁, l₂ ++ r.payloadHeaders, ?_, ?_, ?_⟩
  · rw [Message.sentHeaders, hlist, List.append_assoc]
  · show (r.headers.insert a).toList ++ r.payloadHeaders = _
    rw [hins, List.append_assoc, List.cons_append]
  rw [List.mem_append, not_or, List.flatMap_map, List.mem_flatMap]
  constructor
  · rintro ⟨hstart, hno⟩
    refine ⟨hkey, hstart, fun e he hlt hnil => hno ⟨e, ?_, hnil⟩⟩
    rw [SortedSet.mem_def, hlist] at he
    exact (List.mem_append.mp he).resolve_right fun he₂ => lt_asymm hlt (h₂ e he₂)
  · rintro ⟨-, hstart, hbefore⟩
    refine ⟨hstart, fun ⟨e, he, hnil⟩ => hbefore e ?_ (h₁ e he) hnil⟩
    rw [SortedSet.mem_def, hlist]
    exact List.mem_append_left _ he

theorem Response.ownFields_of_sent {r : Response} {hs ks : List (Str × Str)} (h : r.sentHeaders = hs ++ ks) :
    r.ownFields = fieldsOf (((sublines r.startLine).tail ++ (hs.map headerLine).flatMap sublines) ++
      (ks.map headerLine).flatMap sublines) := by
  rw [ownFields, h, List.map_append, List.flatMap_append, List.append_assoc]

/-- **A header more is a header line more**, if the response gains it. -/
theorem Response.ownFields_addHeader {r : Response} {a : Str × Str} (hline : sublines (headerLine a) = [headerLine a])
    (hne : headerLine a ≠ []) (hfield : headerField (headerLine a) = some a) :
    ((r.addHeader a).ownFields).Perm (r.gained a ++ r.ownFields) := by
  unfold gained
  by_cases hkey : ∀ e ∈ r.headers, e.1 ≠ a.1
  · obtain ⟨hs, ks, hown, hsent, hgains⟩ := exists_split hkey
    have hadd : (r.addHeader a).ownFields = fieldsOf (((sublines r.startLine).tail ++
        (hs.map headerLine).flatMap sublines) ++ ((a :: ks).map headerLine).flatMap sublines) := ownFields_of_sent hsent
    rw [ownFields_of_sent hown, hadd]
    split
    · rename_i h
      rw [List.map_cons, List.flatMap_cons, hline]
      exact fieldsOf_middle (hgains.mpr h) hne hfield
    · rename_i h
      have hnil := not_not.mp fun hno => h (hgains.mp hno)
      rw [fieldsOf_of_mem hnil, fieldsOf_of_mem hnil]
      exact List.Perm.refl _
  · have hmem : ∃ e ∈ r.headers, e.1 = a.1 := by simpa using hkey
    rw [if_neg fun h => hkey h.1, addHeader, SortedSet.insert_of_mem hmem]
    exact List.Perm.refl _

theorem Response.gains_connection (r : Response) :
    (r.addHeader (str "Server", str "NiceHTTP")).Gains (str "Connection") ↔ r.Gains (str "Connection") := by
  have hmem : ∀ {e}, e ∈ (r.addHeader (str "Server", str "NiceHTTP")).headers ↔
      e ∈ r.headers ∨ e = (str "Server", str "NiceHTTP") ∧ ∀ b ∈ r.headers, b.1 ≠ str "Server" := SortedSet.mem_insert
  have hplain : [] ∉ sublines (headerLine (str "Server", str "NiceHTTP")) := by decide
  constructor
  · rintro ⟨hkey, hstart, hbefore⟩
    exact ⟨fun e he => hkey e (hmem.mpr (Or.inl he)), hstart, fun e he => hbefore e (hmem.mpr (Or.inl he))⟩
  · rintro ⟨hkey, hstart, hbefore⟩
    refine ⟨fun e he => ?_, hstart, fun e he => ?_⟩
    · rcases hmem.mp he with he | ⟨rfl, -⟩
      · exact hkey e he
      · decide
    · rcases hmem.mp he with he | ⟨rfl, -⟩
      · exact hbefore e he
      · exact fun _ => hplain

/-- **The header lines of the answer** are those of the response, and the
server's two as far as it gains them. -/
theorem Response.headFields_serverHeaders (r : Response) :
    (headFields r.serverHeaders.toString).Perm
      (r.gained (str "Connection", str "close") ++ (r.gained (str "Server", str "NiceHTTP") ++ r.ownFields)) := by
  have hsum : r.serverHeaders =
      (r.addHeader (str "Server", str "NiceHTTP")).addHeader (str "Connection", str "close") := rfl
  have hconn : (r.addHeader (str "Server", str "NiceHTTP")).gained (str "Connection", str "close") =
      r.gained (str "Connection", str "close") := if_congr r.gains_connection rfl rfl
  rw [headFields_toString, hsum]
  refine (ownFields_addHeader (by decide) (by decide) (by decide)).trans ?_
  rw [hconn]
  exact (ownFields_addHeader (by decide) (by decide) (by decide)).append_left _

/-- What the header lines of a response must be for the server to add its own:
different names; a name of the server's only if the answer does not gain that
line, and then a `Connection` that closes. -/
structure Response.Compatible (r : Response) : Prop where
  nodup : (r.ownFields.map lowerName).Nodup
  server : r.Gains (str "Server") → ∀ e ∈ r.ownFields, lowerName e ≠ str "server"
  connection : r.Gains (str "Connection") → ∀ e ∈ r.ownFields, lowerName e ≠ str "connection"
  close : ¬ r.Gains (str "Connection") →
    (r.ownFields.filter fun e => lowerName e = str "connection").map Prod.snd = [str "close"]

/-- **The answer is unambiguous** exactly if the response is compatible with the
lines that the server adds. -/
theorem Response.unambiguous_serverHeaders (r : Response) :
    Unambiguous (headFields r.serverHeaders.toString) ↔ r.Compatible := by
  rw [unambiguous_perm r.headFields_serverHeaders, gained, gained]
  have hne : lowerName (str "Server", str "NiceHTTP") ≠ str "connection" := by decide
  have hnames : ((((str "Server", str "NiceHTTP") : Str × Str) :: r.ownFields).map lowerName).Nodup ↔
      (∀ e ∈ r.ownFields, lowerName e ≠ str "server") ∧ (r.ownFields.map lowerName).Nodup := by
    rw [List.map_cons, List.nodup_cons, lowerName_server, notMem_names]
  by_cases hc : r.Gains (str "Connection")
  · rw [if_pos hc, List.singleton_append, unambiguous_connection]
    by_cases hs : r.Gains (str "Server")
    · rw [if_pos hs, List.singleton_append, List.forall_mem_cons, hnames]
      exact ⟨fun h => ⟨h.2.2, fun _ => h.2.1, fun _ => h.1.2, fun hno => absurd hc hno⟩,
        fun h => ⟨⟨hne, h.connection hc⟩, h.server hs, h.nodup⟩⟩
    · rw [if_neg hs, List.nil_append]
      exact ⟨fun h => ⟨h.2, fun hg => absurd hg hs, fun _ => h.1, fun hno => absurd hc hno⟩,
        fun h => ⟨h.connection hc, h.nodup⟩⟩
  · rw [if_neg hc, List.nil_append]
    by_cases hs : r.Gains (str "Server")
    · rw [if_pos hs, List.singleton_append, unambiguous_server]
      exact ⟨fun h => ⟨h.2.1, fun _ => h.1, fun hg => absurd hg hc, fun _ => h.2.2⟩,
        fun h => ⟨h.server hs, h.nodup, h.close hc⟩⟩
    · rw [if_neg hs, List.nil_append]
      exact ⟨fun h => ⟨h.1, fun hg => absurd hg hs, fun hg => absurd hg hc, fun _ => h.2⟩,
        fun h => ⟨h.nodup, h.close hc⟩⟩

/-! ### Responses without line breaks -/

section Clean

variable {r : Response}

/-- A response none of whose texts breaks a line, with names without colon. -/
structure Response.Clean (r : Response) : Prop where
  proto : ch '\n' ∉ r.proto
  message : ch '\n' ∉ r.message
  headers : ∀ e ∈ r.headers, ch '\n' ∉ e.1 ∧ ch ':' ∉ e.1 ∧ ch '\n' ∉ e.2

theorem headerLine_ne_nil (e : Str × Str) : headerLine e ≠ [] := by simp [headerLine]

/-- A header line of a name without colon gives name and value back. -/
theorem headerField_headerLine {e : Str × Str} (h : ch ':' ∉ e.1) :
    headerField (headerLine e) = some (e.1, trim e.2) := by
  have hline : headerLine e = e.1 ++ ch ':' :: ch ' ' :: e.2 := by
    rw [headerLine, List.append_assoc]
    rfl
  have hmem : ch ':' ∈ headerLine e := hline ▸ List.mem_append_right _ List.mem_cons_self
  have hall : ∀ c ∈ e.1, decide (c ≠ ch ':') = true := fun c hc => decide_eq_true fun h0 => h (h0 ▸ hc)
  rw [headerField, if_pos hmem, hline, List.takeWhile_append_of_pos hall, List.dropWhile_append_of_pos hall,
    List.takeWhile_cons_of_neg (by simp), List.dropWhile_cons_of_neg (by simp), List.append_nil, List.tail_cons]
  rfl

theorem Response.Clean.sent (h : r.Clean) : ∀ e ∈ r.sentHeaders, ch '\n' ∉ headerLine e ∧ ch ':' ∉ e.1 := by
  have hnum : ∀ n, ch '\n' ∉ decimal n := fun n => notMem_decimal (by decide)
  have hname : ch '\n' ∉ str "Content-Length" ∧ ch ':' ∉ str "Content-Length" := by decide
  have hline : ∀ {e : Str × Str}, ch '\n' ∉ e.1 → ch '\n' ∉ e.2 → ch '\n' ∉ headerLine e := fun h1 h2 => by
    simp only [headerLine, List.mem_append, not_or]
    exact ⟨⟨h1, by decide⟩, h2⟩
  intro e he
  rcases List.mem_append.mp he with he | he
  · obtain ⟨h1, hcolon, h2⟩ := h.headers e he
    exact ⟨hline h1 h2, hcolon⟩
  · unfold Message.payloadHeaders at he
    split at he
    · rcases List.mem_cons.mp he with rfl | he
      · exact ⟨hline hname.1 (hnum _), hname.2⟩
      · split at he
        · rw [List.mem_singleton.mp he]
          decide
        · cases he
    · cases he

theorem Response.Clean.sublines_startLine (h : r.Clean) : sublines r.startLine = [r.startLine] := by
  have hint : ch '\n' ∉ printInt r.code.toInt := notMem_printInt (by decide)
  refine sublines_eq ?_
  simp only [startLine, List.mem_append, not_or]
  exact ⟨⟨⟨⟨h.proto, by decide⟩, hint⟩, by decide⟩, h.message⟩

/-- **The header lines of a clean response are its headers.** -/
theorem Response.Clean.ownFields (h : r.Clean) : r.ownFields = r.sentHeaders.map fun e => (e.1, trim e.2) := by
  have hlines : (r.sentHeaders.map headerLine).flatMap sublines = r.sentHeaders.map headerLine := by
    rw [List.flatMap_map, List.map_eq_flatMap]
    exact List.flatMap_congr fun e he => sublines_eq (h.sent e he).1
  have hnil : [] ∉ r.sentHeaders.map headerLine := by
    rw [List.mem_map, not_exists]
    exact fun e ⟨_, he⟩ => headerLine_ne_nil e he
  have hfields := fieldsOf_of_notMem hnil []
  rw [List.append_nil] at hfields
  have hread : r.sentHeaders.filterMap (headerField ∘ headerLine) =
      r.sentHeaders.filterMap (some ∘ fun e => (e.1, trim e.2)) :=
    List.filterMap_congr fun e he => headerField_headerLine (h.sent e he).2
  rw [Response.ownFields, h.sublines_startLine, hlines, List.tail_cons, List.nil_append, hfields, List.filterMap_map,
    hread, List.filterMap_eq_map]
  exact List.append_nil _

/-- A clean response gains a header unless it has one of the same spelling. -/
theorem Response.Clean.gains_iff (h : r.Clean) (k : Str) : r.Gains k ↔ ∀ e ∈ r.headers, e.1 ≠ k := by
  refine and_iff_left ⟨?_, fun e he _ => ?_⟩
  · rw [h.sublines_startLine]
    exact List.not_mem_nil
  · rw [sublines_eq (h.sent e (List.mem_append_left _ he)).1, List.mem_singleton]
    exact (headerLine_ne_nil e).symm

theorem Response.OwnNames.sent_nodup (h : r.OwnNames) : (r.sentHeaders.map lowerName).Nodup := by
  have hsub := payloadHeaders_names r.toMessage
  rw [Message.sentHeaders, List.map_append, List.nodup_append]
  refine ⟨h.nodup, hsub.nodup (by decide), fun a ha b hb hab => ?_⟩
  obtain ⟨x, hx, rfl⟩ := List.mem_map.mp ha
  obtain ⟨hlen, htype⟩ := h.free x hx
  rcases List.mem_pair.mp (hsub.subset hb) with hname | hname
  · exact hlen (hab.trans hname)
  · exact htype (hab.trans hname)

/-- The lines of the length and the flag have no name of the server's. -/
theorem Message.mem_headers_of_sent {m : Message} {e : Str × Str} (he : e ∈ m.sentHeaders)
    (hname : lowerName e = str "server" ∨ lowerName e = str "connection") : e ∈ m.headers := by
  refine (List.mem_append.mp he).resolve_right fun he => ?_
  have hmem := (payloadHeaders_names m).subset (List.mem_map_of_mem he)
  rcases hname with hname | hname <;> rw [hname] at hmem <;> exact absurd hmem (by decide)

/-- Where names are told apart, one line has the name of a line. -/
theorem filter_lowerName {hs : List (Str × Str)} (hnd : (hs.map lowerName).Nodup) {e : Str × Str} (he : e ∈ hs) :
    (hs.filter fun x => lowerName x = lowerName e) = [e] := by
  have hinj := (List.nodup_map_iff_inj_on hnd.of_map).mp hnd
  refine List.perm_singleton.mp ((List.perm_ext_iff_of_nodup (hnd.of_map.filter _) (List.nodup_singleton e)).mpr
    fun x => ?_)
  rw [List.mem_filter, List.mem_singleton, decide_eq_true_iff]
  constructor
  · exact fun hx => hinj x hx.1 e he hx.2
  · rintro rfl
    exact ⟨he, rfl⟩

/-- **A clean response is compatible** exactly if it spells the server's names as
the server does, and closes the connection. -/
theorem Response.Clean.compatible_iff (hc : r.Clean) (h : r.OwnNames) : r.Compatible ↔ r.ServerSpelling := by
  have hown := (List.nodup_map_iff_inj_on h.nodup.of_map).mp h.nodup
  have hnames : r.ownFields.map lowerName = r.sentHeaders.map lowerName := by
    rw [hc.ownFields, List.map_map]
    rfl
  have hnd : (r.ownFields.map lowerName).Nodup := hnames ▸ h.sent_nodup
  have hfield : ∀ {e}, e ∈ r.headers → (e.1, trim e.2) ∈ r.ownFields := fun he => by
    rw [hc.ownFields]
    exact List.mem_map_of_mem (List.mem_append_left _ he)
  -- a line with a name of the server's is an entry of the callback
  have hentry : ∀ {x}, x ∈ r.ownFields → lowerName x = str "server" ∨ lowerName x = str "connection" →
      ∃ e ∈ r.headers, (e.1, trim e.2) = x := fun hx hname => by
    rw [hc.ownFields] at hx
    obtain ⟨e, he, rfl⟩ := List.mem_map.mp hx
    exact ⟨e, Message.mem_headers_of_sent he hname, rfl⟩
  -- the only entry of a name is spelled otherwise, so the response gains the server's
  have hgains : ∀ {e} {k : Str}, e ∈ r.headers → lowerName e = k.map tolower → e.1 ≠ k → r.Gains k :=
    fun {e k} he hname hne => (hc.gains_iff k).mpr fun b hb hbk =>
      hne (hown e he b hb (hname.trans (congrArg (List.map tolower) hbk.symm)) ▸ hbk)
  constructor
  · intro hr e he
    refine ⟨fun hname => ?_, fun hname => ?_⟩
    · by_contra hne
      exact hr.server (hgains he (hname.trans (lowerName_server []).symm) hne) _ (hfield he) hname
    · have hspelled : e.1 = str "Connection" := by
        by_contra hne
        exact hr.connection (hgains he (hname.trans (lowerName_connection []).symm) hne) _ (hfield he) hname
      have hkept : ¬ r.Gains (str "Connection") := fun hg => hg.1 e he hspelled
      have hmem : trim e.2 ∈ (r.ownFields.filter fun e => lowerName e = str "connection").map Prod.snd :=
        List.mem_map_of_mem (List.mem_filter.mpr ⟨hfield he, decide_eq_true hname⟩)
      rw [hr.close hkept, List.mem_singleton] at hmem
      exact ⟨hspelled, hmem⟩
  · intro hs
    refine ⟨hnd, fun hg x hx hname => ?_, fun hg x hx hname => ?_, fun hg => ?_⟩
    · obtain ⟨e, he, rfl⟩ := hentry hx (Or.inl hname)
      exact hg.1 e he ((hs e he).1 hname)
    · obtain ⟨e, he, rfl⟩ := hentry hx (Or.inr hname)
      exact hg.1 e he ((hs e he).2 hname).1
    · rw [hc.gains_iff] at hg
      obtain ⟨e, he, hkey⟩ : ∃ e ∈ r.headers, e.1 = str "Connection" := by simpa using hg
      have hname : lowerName e = str "connection" :=
        (congrArg (List.map tolower) hkey).trans (lowerName_connection [])
      have hone : (r.ownFields.filter fun x => lowerName x = str "connection") = [(e.1, trim e.2)] := by
        rw [← hname]
        exact filter_lowerName hnd (hfield he)
      rw [hone, List.map_singleton, ((hs e he).2 hname).2]

end Clean

/-- An answer with one header of its own. -/
def withHeader (e : Str × Str) : Response :=
  { code := 200, message := str "OK", proto := protoHttp1, headers := (∅ : Headers).insert e }

/-- A header that breaks its line, and closes no connection. -/
def brokenLine : Str × Str := (str "X-A", str "1\r\nConnection: keep-alive")

end NiceHttp
