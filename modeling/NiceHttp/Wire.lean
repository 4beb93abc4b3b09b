/-
# A printed message on the wire

What both `toString` print is a block of lines, an empty line and, under a
`Content-Length`, the body (`format_eq`). If no line end hides in the start
line and every entry of the map can be told from the other lines
(`WireHeader`), the first empty line is the right one (`cut_format`), and
reading the lines gives the map with lower-case names back, the length, and
the flag if it was printed (`read_headerLines`).

What comes back is `Message.onWire`: without a `Content-Length` neither the
body nor the JSON flag is printed.

Key definitions: `WireHeader`, `Headers.lowerNames`, `Message.onWire`.
Key theorems: `cut_format`, `Message.parsed_format`, `wireHeader_of_read`.
-/
import NiceHttp.Recv
import NiceHttp.Response

namespace NiceHttp

open CString Text

/-! ### The text -/

/-- An entry of the map that is read back as it is: nothing in it is taken for
the separator or a line end, and its line goes into the map. -/
def WireHeader (e : Str × Str) : Prop :=
  ch '\n' ∉ e.1 ∧ Free 58 32 e.1 ∧ ch '\n' ∉ e.2 ∧
    field (e.1 ++ str ": " ++ e.2 ++ [13]) = .entry (e.1.map tolower) e.2

/-- The header lines that `toString` prints. -/
def Message.headerLines (m : Message) : List Str :=
  (m.headers.toList.map fun h => h.1 ++ str ": " ++ h.2) ++
    if m.contentLength ≠ 0 then
      (str "Content-Length: " ++ decimal m.contentLength.toNat) ::
        if m.isJson then [str "Content-Type: application/json"] else []
    else []

/-- The body that `toString` prints. -/
def Message.payload (m : Message) : Str := if m.contentLength ≠ 0 then m.body else []

/-- The printed text is a block of lines, an empty line and the payload. -/
theorem format_eq (m : Message) (start : Str) :
    m.format start (str "\r\n") = block 13 10 (start :: m.headerLines) ++ 13 :: 10 :: m.payload := by
  have happ : ∀ ls ks : List Str, block 13 10 (ls ++ ks) = block 13 10 ls ++ block 13 10 ks :=
    fun ls ks => by simp [block]
  have hmap : (m.headers.toList.flatMap fun h => h.1 ++ str ": " ++ h.2 ++ str "\r\n") =
      block 13 10 (m.headers.toList.map fun h => h.1 ++ str ": " ++ h.2) := by
    simp [block, List.flatMap_map]
  unfold Message.format Message.headerLines Message.payload
  rw [hmap, block_cons, happ]
  split
  · split <;> simp
  · simp

theorem headerLines_ne {m : Message} (h : ∀ e ∈ m.headers, WireHeader e) :
    ∀ l ∈ m.headerLines, l ≠ [] ∧ (10 : UInt8) ∉ l := by
  intro l hl
  rcases List.mem_append.mp hl with hl | hl
  · obtain ⟨e, he, rfl⟩ := List.mem_map.mp hl
    obtain ⟨hk, -, hv, -⟩ := h e he
    rw [lf_eq] at hk hv
    simp [hk, hv]
  · split at hl
    · rcases List.mem_cons.mp hl with rfl | hl
      · refine ⟨by simp [str], fun hm => ?_⟩
        rcases List.mem_append.mp hm with hm | hm
        · exact absurd hm (by decide)
        · exact notMem_decimal (by decide) hm
      · split at hl
        · rw [List.mem_singleton.mp hl]
          decide
        · cases hl
    · cases hl

/-- **The first empty line is the end of the head.** -/
theorem cut_format {m : Message} {start : Str} (hs : Free 13 10 start)
    (h : ∀ e ∈ m.headers, WireHeader e) :
    cut (m.format start (str "\r\n")) =
      some (block 13 10 (start :: m.headerLines) ++ [13, 10], m.payload) := by
  have hfind := find_blank (by decide : (13 : UInt8) ≠ 10) m.headerLines start m.payload hs (headerLines_ne h)
  have hlen : 2 ≤ (block (13 : UInt8) 10 (start :: m.headerLines)).length := by
    simp only [block_cons, List.length_append, List.length_cons]
    omega
  have hend : (block 13 10 (start :: m.headerLines)).length - 2 + 4 =
      (block 13 10 (start :: m.headerLines) ++ [13, 10]).length := by
    rw [List.length_append]
    simp only [List.length_cons, List.length_nil]
    omega
  have htext : block 13 10 (start :: m.headerLines) ++ 13 :: 10 :: m.payload =
      (block 13 10 (start :: m.headerLines) ++ [13, 10]) ++ m.payload := by simp
  calc cut (m.format start (str "\r\n"))
      = cut (block 13 10 (start :: m.headerLines) ++ 13 :: 10 :: m.payload) := by rw [format_eq]
    _ = some (((block 13 10 (start :: m.headerLines) ++ [13, 10]) ++ m.payload).take
          (block 13 10 (start :: m.headerLines) ++ [13, 10]).length,
        ((block 13 10 (start :: m.headerLines) ++ [13, 10]) ++ m.payload).drop
          (block 13 10 (start :: m.headerLines) ++ [13, 10]).length) := by
        rw [cut, blank_eq, hfind, Option.map_some, hend, htext]
    _ = some (block 13 10 (start :: m.headerLines) ++ [13, 10], m.payload) := by
        rw [List.take_left, List.drop_left]

/-! ### The lines, read -/

/-- The map with its names in lower case. -/
def Headers.lowerNames (h : Headers) : Headers :=
  (∅ : Headers).insertAll (h.toList.map fun e => (e.1.map tolower, e.2))

/-- A message as its printed text tells it. -/
def Message.onWire (m : Message) : Message :=
  { m with
    headers := m.headers.lowerNames
    body := m.payload
    isJson := m.isJson && m.contentLength ≠ 0 }

/-- A first `": "` ends the name, and what is behind it, but for its last
letter, is the value. -/
theorem fieldName_append {k : Str} (hk : Free 58 32 k) (u : Str) :
    fieldName (k ++ ch ':' :: ch ' ' :: u) = some (k.map tolower) ∧
      fieldValue (k ++ ch ':' :: ch ' ' :: u) = u.dropLast := by
  have hfind : find (str ": ") (k ++ ch ':' :: ch ' ' :: u) = some k.length := find_pair_append (by decide) hk u
  have hdrop : (k ++ ch ':' :: ch ' ' :: u).drop (k.length + 2) = u := by
    rw [List.drop_length_add_append]
    rfl
  unfold fieldName fieldValue
  rw [hfind]
  simp only [Option.map_some, List.take_left, hdrop, and_self]

/-- The name and the value of a CRLF line. -/
theorem fieldName_line {k v : Str} (hk : Free 58 32 k) :
    fieldName (k ++ str ": " ++ v ++ [13]) = some (k.map tolower) ∧
      fieldValue (k ++ str ": " ++ v ++ [13]) = v := by
  have hline : k ++ str ": " ++ v ++ [13] = k ++ ch ':' :: ch ' ' :: (v ++ [13]) := by simp [ch]
  have happ := fieldName_append hk (v ++ [13])
  rw [List.dropLast_concat] at happ
  rwa [hline]

/-- An entry with an ordinary name is read back. -/
theorem wireHeader_of {e : Str × Str} (hk : ch '\n' ∉ e.1) (hfree : Free 58 32 e.1) (hv : ch '\n' ∉ e.2)
    (hlen : e.1.map tolower ≠ str "content-length")
    (hjson : ¬ (e.1.map tolower = str "content-type" ∧ e.2 = str "application/json")) : WireHeader e := by
  refine ⟨hk, hfree, hv, ?_⟩
  obtain ⟨h1, h2⟩ := fieldName_line (v := e.2) hfree
  unfold field
  rw [h1, h2]
  simp only [if_neg hlen, if_neg hjson]

/-- The line of a length, whatever the case of its name. -/
theorem field_length_line {nm : Str} (hnm : nm.map tolower = str "content-length") (d : Str) :
    field (nm ++ str ": " ++ d ++ [13]) = .length d := by
  have hcolon : (58 : UInt8) ∉ nm := fun hm => by
    have hlow : tolower 58 ∈ nm.map tolower := List.mem_map_of_mem hm
    rw [hnm] at hlow
    exact absurd hlow (by decide)
  obtain ⟨hname, hval⟩ := fieldName_line (v := d) (free_of_notMem_left hcolon)
  unfold field
  rw [hname, hval]
  simp only [hnm, if_true]

/-- The line that `toString` prints of a length. -/
theorem field_length (n : ℕ) :
    field (str "Content-Length: " ++ decimal n ++ [13]) = .length (decimal n) := by
  have hline : str "Content-Length: " = str "Content-Length" ++ str ": " := by decide
  rw [hline]
  exact field_length_line (by decide) (decimal n)

/-- The line of the flag. -/
theorem field_json : field (str "Content-Type: application/json" ++ [13]) = .json := by decide

/-- The fields of the printed lines. -/
theorem fields_headerLines {m : Message} (h : ∀ e ∈ m.headers, WireHeader e) :
    m.headerLines.map (fun l => field (l ++ [13])) =
      (m.headers.toList.map fun e => Field.entry (e.1.map tolower) e.2) ++
        if m.contentLength ≠ 0 then
          .length (decimal m.contentLength.toNat) :: if m.isJson then [.json] else []
        else [] := by
  unfold Message.headerLines
  rw [List.map_append, List.map_map]
  congr 1
  · exact List.map_congr_left fun e he => (h e he).2.2.2
  · split
    · rw [List.map_cons, field_length]
      split
      · rw [List.map_singleton, field_json]
      · rfl
    · rfl

/-- The fields of a block of CRLF lines. -/
theorem read_block (m : Message) {ls : List Str} (h : ∀ l ∈ ls, ch '\n' ∉ l) :
    m.read (block 13 10 ls) = (ls.map fun l => field (l ++ [13])).foldl Message.put m := by
  have hlf : ∀ l ∈ ls, (10 : UInt8) ∉ l := fun l hl => by
    have := h l hl
    rwa [lf_eq] at this
  have hsplit := splitOn_block (by decide : (13 : UInt8) ≠ 10) ls [] hlf
  rw [List.append_nil] at hsplit
  rw [read_eq, lf_eq, hsplit, List.splitOn_nil, List.map_append, List.foldl_append, List.map_map]
  rfl

/-- Fields that are headers go into the map. -/
theorem foldl_put_entries : ∀ (l : List (Str × Str)) (m : Message),
    (l.map fun e => Field.entry e.1 e.2).foldl Message.put m = { m with headers := m.headers.insertAll l }
  | [], _ => rfl
  | e :: l, m => by
    rw [List.map_cons, List.foldl_cons, foldl_put_entries l]
    rfl

/-- **The printed lines are read back**: the map with lower-case names, the
length, and the flag if there is a length. -/
theorem read_headerLines {m : Message} (h : ∀ e ∈ m.headers, WireHeader e) (proto : Str) :
    ({ proto := proto } : Message).read (block 13 10 m.headerLines ++ [13, 10]) =
      { m.onWire with proto := proto, body := [] } := by
  -- the empty line is one more line, which is skipped
  have hblock : block 13 10 m.headerLines ++ [13, 10] = block 13 10 (m.headerLines ++ [[]]) := by simp [block]
  have hlf : ∀ l ∈ m.headerLines ++ [[]], ch '\n' ∉ l := fun l hl => by
    rw [lf_eq]
    rcases List.mem_append.mp hl with hl | hl
    · exact (headerLines_ne h l hl).2
    · rw [List.mem_singleton.mp hl]
      exact List.not_mem_nil
  have hskip : ∀ m' : Message, (([[]] : List Str).map fun l => field (l ++ [13])).foldl Message.put m' = m' :=
    fun _ => rfl
  -- the entries fill the map; the other two fields stay
  have hmap : (m.headers.toList.map fun e => Field.entry (e.1.map tolower) e.2).foldl Message.put
      { proto := proto } = { proto := proto, headers := m.headers.lowerNames } := by
    have hlower : (m.headers.toList.map fun e => Field.entry (e.1.map tolower) e.2) =
        (m.headers.toList.map fun e => (e.1.map tolower, e.2)).map fun e => Field.entry e.1 e.2 := by
      rw [List.map_map]
      rfl
    rw [hlower, foldl_put_entries]
    rfl
  rw [hblock, read_block _ hlf, List.map_append, List.foldl_append, hskip, fields_headerLines h, List.foldl_append,
    hmap]
  unfold Message.onWire
  by_cases hc : m.contentLength = 0
  · simp [hc]
  · have hlen : strtoul (cstr (decimal m.contentLength.toNat)) = m.contentLength := by
      rw [cstr_of_notMem (notMem_decimal (by decide)), strtoul_decimal m.contentLength.toNat_lt]
      exact UInt64.ofNat_toNat
    cases hj : m.isJson <;> simp [hc, Message.put, hlen]

/-- **A printed message is read back as its `onWire`**, if its body has the
announced length or is empty. -/
theorem Message.parsed_format {m : Message} (h : ∀ e ∈ m.headers, WireHeader e) (proto : Str)
    (hb : m.contentLength ≠ 0 → m.body.length = m.contentLength.toNat ∨ m.body = []) :
    parsed proto (block 13 10 m.headerLines ++ [13, 10]) m.payload = { m.onWire with proto := proto } := by
  rw [parsed, read_headerLines h]
  unfold withBody
  by_cases hc : m.contentLength = 0
  · have hp : m.payload = [] := by simp [payload, hc]
    simp [Mismatch, onWire, hc, hp]
  · have hp : m.payload = m.body := by simp [payload, hc]
    rcases hb hc with hlen | hnil
    · rw [if_neg (by simp [Mismatch, onWire, hp, hlen])]
      rfl
    · split
      · simp [onWire, hp, hnil]
      · rfl

/-! ### What was read can be printed -/

/-- A line of the map has neither special name, and is its name and value. -/
theorem field_eq_entry {l k v : Str} (h : field l = .entry k v) :
    fieldName l = some k ∧ fieldValue l = v ∧ k ≠ str "content-length" ∧
      ¬ (k = str "content-type" ∧ v = str "application/json") := by
  unfold field at h
  split at h
  · cases h
  · rename_i key hkey
    split at h
    · cases h
    · rename_i hlen
      split at h
      · cases h
      · rename_i hjson
        obtain ⟨rfl, rfl⟩ := Field.entry.inj h
        exact ⟨hkey, rfl, hlen, hjson⟩

/-- Lower case keeps every byte that is no letter. -/
theorem tolower_eq {c x : UInt8} (hx : x.toNat < 65) : tolower c = x ↔ c = x := by
  unfold tolower
  split
  · rename_i h
    simp only [UInt8.le_iff_toNat_le, UInt8.reduceToNat] at h
    rw [← UInt8.toNat_inj, ← UInt8.toNat_inj, UInt8.toNat_add]
    simp only [UInt8.reduceToNat]
    omega
  · rfl

theorem notMem_map_tolower {s : Str} {x : UInt8} (hx : x.toNat < 65) (h : x ∉ s) : x ∉ s.map tolower := by
  intro hm
  obtain ⟨c, hc, he⟩ := List.mem_map.mp hm
  exact h ((tolower_eq hx).mp he ▸ hc)

theorem free_map_tolower {s : Str} {x y : UInt8} (hx : x.toNat < 65) (hy : y.toNat < 65) (h : Free x y s) :
    Free x y (s.map tolower) := by
  unfold Free at h ⊢
  rw [List.isChain_map]
  exact h.imp fun a b hab he => hab ⟨(tolower_eq hx).mp he.1, (tolower_eq hy).mp he.2⟩

/-- **An entry that was read from a header block can be printed**, and its
name is in lower case. -/
theorem wireHeader_of_read {proto s : Str} {e : Str × Str}
    (h : e ∈ (({ proto := proto } : Message).read s).headers) :
    WireHeader e ∧ e.1.map tolower = e.1 := by
  unfold Message.read at h
  rw [foldl_put_headers] at h
  rcases SortedSet.mem_of_mem_insertAll h with h | h
  · exact absurd h (SortedSet.notMem_empty e)
  obtain ⟨f, hf, hfe⟩ := List.mem_filterMap.mp h
  obtain ⟨l, hl, rfl⟩ := List.mem_map.mp hf
  have hl10 : (10 : UInt8) ∉ l := (mem_splitView hl).2
  have hentry : field l = .entry e.1 e.2 := by
    cases hfl : field l <;> rw [hfl] at hfe <;> cases hfe
    rfl
  obtain ⟨hname, hval, hlen, hjson⟩ := field_eq_entry hentry
  obtain ⟨i, hi, hk⟩ := Option.map_eq_some_iff.mp hname
  rw [colon_eq] at hi
  have hlow : e.1.map tolower = e.1 := by
    rw [← hk, List.map_map]
    exact List.map_congr_left fun c _ => tolower_tolower c
  have hv : e.2 = (l.drop (i + 2)).dropLast := by
    rw [← hval, fieldValue, colon_eq, hi]
  refine ⟨wireHeader_of ?_ ?_ ?_ (by rwa [hlow]) (by rwa [hlow]), hlow⟩
  · rw [← hk]
    exact notMem_map_tolower (by decide) fun hm => hl10 ((List.take_subset _ _) hm)
  · rw [← hk]
    exact free_map_tolower (by decide) (by decide) (find_pair_some hi).1
  · rw [hv]
    exact fun hm => hl10 ((List.drop_subset _ _) (List.dropLast_subset _ hm))

end NiceHttp
