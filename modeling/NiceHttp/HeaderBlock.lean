/-
# What a header block means

The three fields that `parseHeaders` fills follow three different rules on
repeated names, and two kinds of lines are kept out of the map. Of a block of
CRLF lines the map has, for each name, the value of the first line of that
name that is not kept out; the length is that of the last `content-length`
line; the flag is set if some `content-type` line says `application/json`
(`header_fold`). A line that has no `": "` does nothing.

A line is meant without its CRLF here, and its value reaches up to its end:
the letter that `parseHeaders` drops is the CR.

Key definitions: `lineValue`, `IsLength`, `IsJson`, `Mapped`.
Key theorems: `field_crlf`.
-/
import NiceHttp.Fields

namespace NiceHttp

open CString Text

/-! ### Lines -/

/-- The text of a line after its first `": "`. -/
def lineValue (l : Str) : Str :=
  match find (str ": ") l with
  | none => []
  | some i => l.drop (i + 2)

/-- A line of the length. -/
abbrev IsLength (l : Str) : Prop := fieldName l = some (str "content-length")

/-- A line that announces JSON. -/
abbrev IsJson (l : Str) : Prop :=
  fieldName l = some (str "content-type") ∧ lineValue l = str "application/json"

/-- A line of the name `k` that goes into the map. -/
abbrev Mapped (k l : Str) : Prop := fieldName l = some k ∧ ¬ IsLength l ∧ ¬ IsJson l

/-- The CR of a line is behind its first `": "`. -/
theorem find_colon_crlf (l : Str) : find (str ": ") (l ++ [13]) = find (str ": ") l := by
  cases hf : find (str ": ") l with
  | none =>
    have hfree : Free 58 32 l := free_of_no_start fun j => colon_eq ▸ find_none hf j
    have hno : find (str ": ") [13] = none := by decide
    rw [colon_eq] at hno ⊢
    rw [find_append l [13] (not_prefix_of_free hfree fun u hu e => by
      obtain rfl : 13 = u := Option.some.inj hu
      exact absurd e (by decide)), hno]
    rfl
  | some i =>
    rw [colon_eq] at hf ⊢
    obtain ⟨hfree, hsplit⟩ := find_pair_some hf
    have hlen : (l.take i).length = i := by
      have hle := find_colon_le (colon_eq ▸ hf)
      rw [List.length_take]
      omega
    have happ := find_pair_append (by decide : (58 : UInt8) ≠ 32) hfree (l.drop (i + 2) ++ [13])
    have htext : l ++ [13] = l.take i ++ 58 :: 32 :: (l.drop (i + 2) ++ [13]) := by
      rw [← List.cons_append, ← List.cons_append, ← List.append_assoc, ← hsplit]
    calc find [58, 32] (l ++ [13])
        = find [58, 32] (l.take i ++ 58 :: 32 :: (l.drop (i + 2) ++ [13])) := by rw [← htext]
      _ = some (l.take i).length := happ
      _ = some i := by rw [hlen]

/-- The name of a CRLF line is that of the line. -/
theorem fieldName_crlf (l : Str) : fieldName (l ++ [13]) = fieldName l := by
  unfold fieldName
  rw [find_colon_crlf]
  cases hf : find (str ": ") l with
  | none => rfl
  | some i =>
    have hi := find_colon_le hf
    rw [Option.map_some, Option.map_some, List.take_append_of_le_length (by omega)]

/-- The value of a CRLF line reaches up to the CR. -/
theorem fieldValue_crlf (l : Str) : fieldValue (l ++ [13]) = lineValue l := by
  unfold fieldValue lineValue
  rw [find_colon_crlf]
  cases hf : find (str ": ") l with
  | none => rfl
  | some i =>
    have hi := find_colon_le hf
    simp only
    rw [List.drop_append_of_le_length hi, List.dropLast_concat]

/-- A CRLF line without a name does nothing. -/
theorem field_crlf_none {l : Str} (h : fieldName l = none) : field (l ++ [13]) = .skip := by
  rw [field_eq, fieldName_crlf, h]

/-- **A CRLF line does what its name and its value do.** -/
theorem field_crlf {l key : Str} (h : fieldName l = some key) : field (l ++ [13]) = .of key (lineValue l) := by
  rw [field_eq, fieldName_crlf, fieldValue_crlf, h]

/-- A line of the length is one. -/
theorem length?_crlf (l : Str) :
    (field (l ++ [13])).length? = if IsLength l then some (lineValue l) else none := by
  by_cases h : IsLength l
  · rw [if_pos h, field_crlf h, Field.of, if_pos rfl]
    rfl
  · rw [if_neg h]
    exact length?_eq_none fun e => h ((fieldName_crlf l).symm.trans e)

/-- A line goes into the map under its name, if it is not kept out. -/
theorem header?_crlf {l : Str} {e : Str × Str} :
    (field (l ++ [13])).header? = some e ↔ Mapped e.1 l ∧ lineValue l = e.2 := by
  cases hn : fieldName l with
  | none => simp [field_crlf_none hn, Mapped, hn, Field.header?]
  | some key =>
    rw [field_crlf hn]
    simp only [Mapped, IsLength, IsJson, hn, Option.some.injEq, Field.of]
    split
    · rename_i hlen
      simp [Field.header?, hlen]
    · rename_i hlen
      split
      · rename_i hjson
        simp [Field.header?, hjson]
      · rename_i hjson
        simp only [Field.header?, Option.some.injEq, hlen, hjson, not_false_eq_true, and_true]
        exact ⟨fun h => h ▸ ⟨rfl, rfl⟩, fun h => Prod.ext h.1 h.2⟩

/-- A line sets the flag if it announces JSON. -/
theorem field_crlf_eq_json {l : Str} : field (l ++ [13]) = .json ↔ IsJson l := by
  have hne : str "content-length" ≠ str "content-type" := by decide
  cases hn : fieldName l with
  | none => simp [field_crlf_none hn, IsJson, hn]
  | some key =>
    rw [field_crlf hn]
    simp only [IsJson, hn, Option.some.injEq, Field.of]
    split
    · rename_i hlen
      simp [hlen, hne]
    · split
      · rename_i hjson
        simp [hjson]
      · rename_i hjson
        simp [hjson]

/-! ### Blocks -/

/-- The lengths of a block, one for each line of the length. -/
theorem filterMap_length?_crlf (ls : List Str) :
    (ls.map fun l => field (l ++ [13])).filterMap Field.length? = (ls.filter fun l => IsLength l).map lineValue := by
  have hline : ∀ l, (Field.length? ∘ fun l => field (l ++ [13])) l =
      if decide (IsLength l) = true then some (lineValue l) else none := fun l => by
    simp only [Function.comp, length?_crlf, decide_eq_true_eq]
  rw [List.filterMap_map, ← List.filterMap_eq_map, List.filterMap_filter]
  exact List.filterMap_congr fun l _ => hline l

/-- A line gives an entry of the name `k` if it goes into the map under it. -/
theorem any_header?_crlf {k : Str} {p : Str × Str → Bool} (hp : ∀ e, p e = true ↔ e.1 = k) (l : Str) :
    (field (l ++ [13])).header?.any p = decide (Mapped k l) := by
  cases ho : (field (l ++ [13])).header? with
  | none =>
    have hno : ¬ Mapped k l := fun hm => by
      have hsome := header?_crlf (e := (k, lineValue l)).mpr ⟨hm, rfl⟩
      rw [ho] at hsome
      cases hsome
    rw [decide_eq_false hno]
    rfl
  | some e =>
    have hm : Mapped e.1 l := (header?_crlf.mp ho).1
    have hiff : p e = true ↔ Mapped k l :=
      (hp e).trans ⟨fun hk => hk ▸ hm, fun hk => Option.some.inj (hm.1.symm.trans hk.1)⟩
    exact Bool.eq_iff_iff.mpr (hiff.trans decide_eq_true_iff.symm)

/-- The entry of a name comes from the first line that goes into the map under it. -/
theorem find?_header?_crlf {k : Str} {p : Str × Str → Bool} (ls : List Str) (hp : ∀ e, p e = true ↔ e.1 = k) :
    (ls.filterMap fun l => (field (l ++ [13])).header?).find? p =
      (ls.find? fun l => Mapped k l).map fun l => (k, lineValue l) := by
  rw [List.find?_filterMap]
  simp only [any_header?_crlf hp]
  cases hf : ls.find? fun l => Mapped k l with
  | none => rfl
  | some l =>
    have hm := List.find?_some hf
    rw [Option.bind_some, Option.map_some, header?_crlf]
    exact ⟨of_decide_eq_true hm, rfl⟩

/-- What the map has of the name `k`. -/
theorem mem_insertAll_crlf (ls : List Str) (k v : Str) :
    (k, v) ∈ (∅ : Headers).insertAll ((ls.map fun l => field (l ++ [13])).filterMap Field.header?) ↔
      (ls.find? fun l => Mapped k l).map lineValue = some v := by
  have hmap : (ls.map fun l => field (l ++ [13])).filterMap Field.header? =
      ls.filterMap fun l => (field (l ++ [13])).header? := List.filterMap_map
  rw [hmap]
  calc (k, v) ∈ (∅ : Headers).insertAll (ls.filterMap fun l => (field (l ++ [13])).header?)
      ↔ ((∅ : Headers).insertAll (ls.filterMap fun l => (field (l ++ [13])).header?)).get k = some (k, v) :=
        (SortedSet.get_eq_some.trans (and_iff_left rfl)).symm
    _ ↔ ((ls.find? fun l => Mapped k l).map fun l => (k, lineValue l)) = some (k, v) := by
        rw [SortedSet.get_insertAll, SortedSet.get_empty, Option.none_or,
          find?_header?_crlf (k := k) ls fun e => by simp only [decide_eq_true_eq]]
    _ ↔ (ls.find? fun l => Mapped k l).map lineValue = some v := by simp

/-- **What a header block means.** -/
theorem header_fold {ls : List Str} (h : ∀ l ∈ ls, ch '\n' ∉ l) :
    ∃ m, ({} : Message).parseHeaders (block 13 10 ls) = .ok m ∧
      (∀ k v, (k, v) ∈ m.headers ↔ (ls.find? fun l => Mapped k l).map lineValue = some v) ∧
      m.contentLength =
        (((ls.filter fun l => IsLength l).getLast?).map fun l => strtoul (cstr (lineValue l))).getD 0 ∧
      (m.isJson = true ↔ ∃ l ∈ ls, IsJson l) ∧
      ∀ e ∈ m.headers, e.1.map tolower = e.1 ∧ e.1 ≠ str "content-length" ∧
        (e.1 = str "content-type" → e.2 ≠ str "application/json") := by
  refine ⟨_, parseHeaders_eq {} _, ?_⟩
  rw [read_block {} h, foldl_put_headers, foldl_put_contentLength, foldl_put_isJson, filterMap_length?_crlf]
  refine ⟨mem_insertAll_crlf ls, ?_, ?_, ?_⟩
  · rw [List.getLast?_map, Option.map_map]
    rfl
  · rw [Bool.false_or, List.contains_iff_mem, List.mem_map]
    exact exists_congr fun l => and_congr_right fun _ => field_crlf_eq_json
  · rintro ⟨k, v⟩ he
    obtain ⟨l, hl, rfl⟩ := Option.map_eq_some_iff.mp ((mem_insertAll_crlf ls k v).mp he)
    have hm := List.find?_some hl
    obtain ⟨hname, hlen, hjson⟩ := of_decide_eq_true hm
    refine ⟨?_, fun hk => hlen (hname.trans (congrArg some hk)),
      fun hk hv => hjson ⟨hname.trans (congrArg some hk), hv⟩⟩
    obtain ⟨i, -, rfl⟩ := Option.map_eq_some_iff.mp hname
    rw [List.map_map]
    exact List.map_congr_left fun c _ => tolower_tolower c

/-- Of two hosts the first stays, of two lengths the last. -/
theorem header_fold_twice :
    ∃ m, ({} : Message).parseHeaders
        (block 13 10 [str "Host: a", str "HOST: b", str "Content-Length: 5", str "content-length: 7"]) = .ok m ∧
      (str "host", str "a") ∈ m.headers ∧ m.contentLength = 7 ∧ m.isJson = false := by
  obtain ⟨m, hm, hmap, hlen, hjson, -⟩ :=
    @header_fold [str "Host: a", str "HOST: b", str "Content-Length: 5", str "content-length: 7"] (by decide)
  exact ⟨m, hm, (hmap _ _).mpr (by decide), hlen.trans (by decide),
    Bool.eq_false_iff.mpr fun h => absurd (hjson.mp h) (by decide)⟩

end NiceHttp
