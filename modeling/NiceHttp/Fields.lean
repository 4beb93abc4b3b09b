/-
# Which header lines are read as HTTP writes them

A header line of HTTP is a name, a colon, a value with blanks around it, and
CRLF or a bare LF (`FieldLine`). `parseHeaders` looks for `": "` and drops the
last letter of the line, so it reads the pair exactly if the only blank is one
space behind the colon; before a bare LF, which has no CR to drop, one more
blank must end the line (`FieldLine.field_text_iff`). Of the value of a
`Content-Length` only the number counts, and white space around a number does
not; so such a line has its effect with any blanks behind the first space, if a
CR or a blank follows the value (`FieldLine.Heeded`, `field_grammar`).

A `Content-Length` is read by `strtoul` with base 0: a leading zero makes the
digits octal, and the number is right exactly if there is none or it is below
8 (`announces_iff`).

Key definitions: `FieldLine`, `FieldLine.Spaced`, `FieldLine.Heeded`,
`Announces`.
-/
import NiceHttp.Wire

namespace NiceHttp

open CString Text

/-! ### Header lines -/

/-- A blank of the grammar. -/
abbrev Blank (c : UInt8) : Prop := c = ch ' ' ∨ c = ch '\t'

/-- A header line of the grammar, without its LF. -/
structure FieldLine where
  name : Str
  before : Str
  value : Str
  after : Str
  /-- The line ends with CRLF. -/
  cr : Bool
  name_ne : name ≠ []
  name_token : ∀ c ∈ name, c ≠ ch ':' ∧ isspace c = false
  blank_before : ∀ c ∈ before, Blank c
  blank_after : ∀ c ∈ after, Blank c
  value_line : ch '\r' ∉ value ∧ ch '\n' ∉ value
  value_start : ∀ c ∈ value.head?, ¬ Blank c
  value_end : ∀ c ∈ value.getLast?, ¬ Blank c

namespace FieldLine

/-- What is behind the colon. -/
def rest (l : FieldLine) : Str := l.before ++ l.value ++ l.after ++ if l.cr then [ch '\r'] else []

/-- The line. -/
def text (l : FieldLine) : Str := l.name ++ ch ':' :: l.rest

/-- The name in lower case, and the value. -/
def pair (l : FieldLine) : Str × Str := (l.name.map tolower, l.value)

/-- The blanks with which the line is read as its pair: one space behind the
colon and nothing else, but for one more blank in front of a bare LF. -/
def Spaced (l : FieldLine) : Prop :=
  if l.value = [] then ∃ u, l.before ++ l.after = ch ' ' :: u ∧ u.length ≤ if l.cr then 0 else 1
  else l.before = [ch ' '] ∧ l.after.length = if l.cr then 0 else 1

/-- The blanks with which the line gives the number of its value: a space behind
the colon, and in front of a bare LF a blank, or a last letter that does not
count. -/
def Counted (l : FieldLine) : Prop :=
  (l.before ++ l.value ++ l.after).head? = some (ch ' ') ∧
    (l.cr = true ∨ l.after ≠ [] ∨ strtoul (cstr l.value.dropLast) = strtoul (cstr l.value))

/-- The lines that do what their pairs do. -/
def Heeded (l : FieldLine) : Prop :=
  if l.name.map tolower = str "content-length" then l.Counted else l.Spaced

end FieldLine

/-- What a name and a value do to the message. -/
def Field.of (key val : Str) : Field :=
  if key = str "content-length" then .length val
  else if key = str "content-type" ∧ val = str "application/json" then .json
  else .entry key val

theorem field_eq (header : Str) :
    field header = match fieldName header with
      | none => .skip
      | some key => .of key (fieldValue header) := rfl

/-- The pair can be told from what it does. -/
theorem Field.of_inj {k v k' v' : Str} (h : Field.of k v = Field.of k' v') : k = k' ∧ v = v' := by
  unfold Field.of at h
  split at h
  · rename_i hk
    split at h
    · rename_i hk'
      exact ⟨hk.trans hk'.symm, Field.length.inj h⟩
    · split at h <;> cases h
  · split at h
    · rename_i hj
      split at h
      · cases h
      · split at h
        · rename_i hj'
          exact ⟨hj.1.trans hj'.1.symm, hj.2.trans hj'.2.symm⟩
        · cases h
    · split at h
      · cases h
      · split at h
        · cases h
        · exact Field.entry.inj h

theorem Field.of_ne_skip (k v : Str) : Field.of k v ≠ .skip := by
  unfold Field.of
  split
  · exact nofun
  · split <;> exact nofun

/-- A line does what a pair does exactly if it is read as that pair. -/
theorem field_eq_of_iff {header k v : Str} :
    field header = .of k v ↔ fieldName header = some k ∧ fieldValue header = v := by
  rw [field_eq]
  cases fieldName header with
  | none => exact ⟨fun h => absurd h.symm (Field.of_ne_skip k v), fun h => nomatch h.1⟩
  | some key =>
    constructor
    · intro h
      obtain ⟨rfl, rfl⟩ := Field.of_inj h
      exact ⟨rfl, rfl⟩
    · rintro ⟨hk, rfl⟩
      rw [Option.some.inj hk]

/-- A name without colon is found exactly if a space follows its colon. -/
theorem fieldName_colon {name rest : Str} (hn : ch ':' ∉ name) :
    fieldName (name ++ ch ':' :: rest) = some (name.map tolower) ↔ ∃ u, rest = ch ' ' :: u := by
  constructor
  · intro h
    obtain ⟨i, hi, hname⟩ := Option.map_eq_some_iff.mp h
    have hle := find_colon_le hi
    have hlen := congrArg List.length hname
    rw [List.length_map, List.length_map, List.length_take] at hlen
    obtain rfl : i = name.length := by omega
    have hstart := find_some hi
    rw [List.drop_left] at hstart
    obtain ⟨u, hu⟩ := hstart
    exact ⟨u, (List.cons.inj hu).2.symm⟩
  · rintro ⟨u, rfl⟩
    exact (fieldName_append (free_of_notMem_left hn) u).1

namespace FieldLine

theorem name_colon (l : FieldLine) : ch ':' ∉ l.name := fun h => (l.name_token _ h).1 rfl

theorem value_rest (l : FieldLine) (u : Str) : fieldValue (l.name ++ ch ':' :: ch ' ' :: u) = u.dropLast :=
  (fieldName_append (free_of_notMem_left l.name_colon) u).2

/-- The last letter of the line, if it is not an LF. -/
theorem dropLast_end {v e : Str} (h : e.length = 1) : (v ++ e).dropLast = v := by
  obtain ⟨c, rfl⟩ := List.length_eq_one_iff.mp h
  exact List.dropLast_concat

/-- Without a value: one space, and before a bare LF perhaps one blank more. -/
theorem rest_iff_of_nil {l : FieldLine} (hv : l.value = []) :
    (∃ u, l.rest = ch ' ' :: u ∧ u.dropLast = l.value) ↔
      ∃ u, l.before ++ l.after = ch ' ' :: u ∧ u.length ≤ if l.cr then 0 else 1 := by
  have hrest : l.rest = (l.before ++ l.after) ++ if l.cr then [ch '\r'] else [] := by
    rw [rest, hv, List.append_nil]
  rw [hrest, hv]
  cases hcr : l.cr with
  | true =>
    simp only [if_true]
    constructor
    · rintro ⟨u, hu, hdrop⟩
      cases hba : l.before ++ l.after with
      | nil =>
        rw [hba, List.nil_append] at hu
        exact absurd (List.cons.inj hu).1 (by decide)
      | cons c w =>
        rw [hba, List.cons_append] at hu
        obtain ⟨rfl, rfl⟩ := List.cons.inj hu
        rw [List.dropLast_concat] at hdrop
        exact ⟨w, rfl, by rw [hdrop]; exact le_refl 0⟩
    · rintro ⟨u, hu, hlen⟩
      obtain rfl : u = [] := List.length_eq_zero_iff.mp (Nat.le_zero.mp hlen)
      exact ⟨[ch '\r'], by rw [hu]; rfl, rfl⟩
  | false =>
    simp only [Bool.false_eq_true, if_false, List.append_nil]
    refine exists_congr fun u => and_congr_right fun _ => ?_
    rw [← List.length_eq_zero_iff, List.length_dropLast]
    omega

/-- One letter is behind the value: the CR, or one blank before a bare LF. -/
theorem one_behind_iff (cr : Bool) (n : ℕ) :
    n + (if cr then [ch '\r'] else []).length = 1 ↔ n = if cr then 0 else 1 := by
  cases cr with
  | true => exact Nat.add_eq_right (a := n) (b := 1)
  | false => exact Iff.rfl

/-- With a value: one space, and before a bare LF one blank at the end. -/
theorem rest_iff_of_ne {l : FieldLine} (hv : l.value ≠ []) :
    (∃ u, l.rest = ch ' ' :: u ∧ u.dropLast = l.value) ↔
      l.before = [ch ' '] ∧ l.after.length = if l.cr then 0 else 1 := by
  constructor
  · rintro ⟨u, hu, hdrop⟩
    obtain ⟨x, v, hx⟩ := List.exists_cons_of_ne_nil hv
    have hstart : ¬ Blank x := l.value_start x (by rw [hx]; rfl)
    rw [rest, List.append_assoc, List.append_assoc] at hu
    cases hb : l.before with
    | nil =>
      rw [hb, hx, List.nil_append, List.cons_append] at hu
      exact absurd (Or.inl (List.cons.inj hu).1) hstart
    | cons y b =>
      rw [hb, List.cons_append] at hu
      obtain ⟨rfl, rfl⟩ := List.cons.inj hu
      have hlen := congrArg List.length hdrop
      have hpos := List.length_pos_of_ne_nil hv
      rw [List.length_dropLast, List.length_append, List.length_append, List.length_append] at hlen
      cases b with
      | nil =>
        rw [List.length_nil] at hlen
        exact ⟨rfl, (one_behind_iff l.cr _).mp (by omega)⟩
      | cons z b =>
        -- a second blank would be the first letter of the value
        have hz : Blank z := l.blank_before z (by rw [hb]; simp)
        rw [List.cons_append, hx, List.dropLast_cons_of_ne_nil (by simp)] at hdrop
        exact absurd ((List.cons.inj hdrop).1 ▸ hz) hstart
  · rintro ⟨hb, ha⟩
    refine ⟨l.value ++ (l.after ++ if l.cr then [ch '\r'] else []), ?_, dropLast_end ?_⟩
    · rw [rest, hb, List.append_assoc, List.append_assoc]
      rfl
    · rw [List.length_append]
      exact (one_behind_iff l.cr _).mpr ha

/-- What a line of the grammar is read as, under its name. -/
theorem field_text (l : FieldLine) {v : Str} :
    field l.text = .of l.pair.1 v ↔ ∃ u, l.rest = ch ' ' :: u ∧ u.dropLast = v := by
  rw [field_eq_of_iff, text, pair, fieldName_colon l.name_colon]
  constructor
  · rintro ⟨⟨u, hu⟩, hval⟩
    rw [hu, l.value_rest] at hval
    exact ⟨u, hu, hval⟩
  · rintro ⟨u, hu, hdrop⟩
    rw [hu, l.value_rest]
    exact ⟨⟨u, rfl⟩, hdrop⟩

/-- **A line of the grammar is read as its pair exactly if it is `Spaced`.** -/
theorem field_text_iff (l : FieldLine) : field l.text = .of l.pair.1 l.pair.2 ↔ l.Spaced := by
  rw [field_text, Spaced]
  by_cases hv : l.value = []
  · rw [if_pos hv]
    exact rest_iff_of_nil hv
  · rw [if_neg hv]
    exact rest_iff_of_ne hv

end FieldLine

/-! ### What a line does -/

/-- Two messages of the same protocol tell two fields apart, unless they are
lengths of one number: a message without anything, and one with a length. -/
theorem eq_of_put_eq {f g : Field} {proto : Str}
    (h : ({ proto := proto } : Message).put f = ({ proto := proto } : Message).put g)
    (h1 : ({ proto := proto, contentLength := 1 } : Message).put f =
      ({ proto := proto, contentLength := 1 } : Message).put g) :
    f = g ∨ ∃ v w, f = .length v ∧ g = .length w ∧ strtoul (cstr v) = strtoul (cstr w) := by
  have hjson := congrArg Message.isJson h
  have hheaders := congrArg (fun m => m.headers.toList) h
  have hlength := congrArg Message.contentLength h
  have hlength1 := congrArg Message.contentLength h1
  -- no number is both lengths
  have hset : ∀ x : UInt64, 0 = x → 1 ≠ x := by
    rintro x rfl
    decide
  cases f with
  | skip =>
    cases g with
    | skip => exact Or.inl rfl
    | length w => exact absurd hlength1 (hset _ hlength)
    | json => cases hjson
    | entry k w => exact absurd hheaders.symm (List.cons_ne_nil _ _)
  | length v =>
    cases g with
    | skip => exact absurd hlength1.symm (hset _ hlength.symm)
    | length w => exact Or.inr ⟨v, w, rfl, rfl, hlength⟩
    | json => cases hjson
    | entry k w => exact absurd hheaders.symm (List.cons_ne_nil _ _)
  | json =>
    cases g with
    | json => exact Or.inl rfl
    | skip => cases hjson
    | length w => cases hjson
    | entry k w => cases hjson
  | entry k v =>
    cases g with
    | skip => exact absurd hheaders (List.cons_ne_nil _ _)
    | length w => exact absurd hheaders (List.cons_ne_nil _ _)
    | json => cases hjson
    | entry k' v' =>
      obtain ⟨rfl, rfl⟩ := Prod.mk.inj (List.cons.inj hheaders).1
      exact Or.inl rfl

namespace FieldLine

theorem isspace_blank {c : UInt8} (h : Blank c) : isspace c = true := by
  rcases h with rfl | rfl
  · decide
  · decide

/-- Blanks around a value do not count in its number. -/
theorem strtoul_blank {b w : Str} (hb : ∀ c ∈ b, Blank c) (v : Str) (hw : ∀ c ∈ w, Blank c) :
    strtoul (cstr (b ++ v ++ w)) = strtoul (cstr v) := by
  have hspace : ∀ {s : Str}, (∀ c ∈ s, Blank c) → ∀ c ∈ s, isspace c = true := fun hs c hc =>
    isspace_blank (hs c hc)
  have hnul : ∀ {s : Str}, (∀ c ∈ s, Blank c) → (0 : UInt8) ∉ s := fun hs h0 =>
    absurd (isspace_blank (hs 0 h0)) (by decide)
  -- behind a NUL in the value nothing is read
  have hcstr : ∃ w', (∀ c ∈ w', isspace c = true) ∧ cstr (b ++ v ++ w) = b ++ cstr v ++ w' := by
    by_cases hv : (0 : UInt8) ∈ v
    · obtain ⟨s, t, rfl⟩ := List.append_of_mem hv
      refine ⟨[], nofun, ?_⟩
      rw [List.append_assoc, cstr_append (hnul hb), List.append_assoc, List.cons_append, cstr_cut, cstr_cut,
        List.append_nil]
    · refine ⟨w, hspace hw, ?_⟩
      rw [List.append_assoc, cstr_append (hnul hb), cstr_append hv, cstr_of_notMem hv, cstr_of_notMem (hnul hw),
        List.append_assoc]
  obtain ⟨w', hw', hcstr⟩ := hcstr
  rw [hcstr, strtoul_space (hspace hb) _ hw']

/-- The number of the line is that of its value. -/
theorem strtoul_rest_iff {l : FieldLine} {u : Str} (hu : l.rest = ch ' ' :: u) :
    strtoul (cstr u.dropLast) = strtoul (cstr l.value) ↔
      l.cr = true ∨ l.after ≠ [] ∨ strtoul (cstr l.value.dropLast) = strtoul (cstr l.value) := by
  have hrest : strtoul (cstr u.dropLast) = strtoul (cstr l.rest.dropLast) := by
    rw [hu]
    cases u with
    | nil => rfl
    | cons c u =>
      have hblank : ∀ c ∈ [ch ' '], Blank c := fun c hc => Or.inl (List.mem_singleton.mp hc)
      have h := strtoul_blank hblank (c :: u).dropLast (w := []) nofun
      rw [List.append_nil] at h
      exact h.symm
  rw [hrest]
  cases hcr : l.cr with
  | true =>
    have hdrop : l.rest.dropLast = l.before ++ l.value ++ l.after := by
      rw [rest, hcr]
      exact List.dropLast_concat
    rw [hdrop, strtoul_blank l.blank_before _ l.blank_after]
    exact ⟨fun _ => Or.inl rfl, fun _ => rfl⟩
  | false =>
    have hline : l.rest = l.before ++ l.value ++ l.after := by
      rw [rest, hcr]
      exact List.append_nil _
    by_cases ha : l.after = []
    · have hdrop : strtoul (cstr l.rest.dropLast) = strtoul (cstr l.value.dropLast) := by
        rw [hline, ha, List.append_nil]
        by_cases hv : l.value = []
        · have h := strtoul_blank (fun c hc => l.blank_before c (List.mem_of_mem_dropLast hc)) [] (w := []) nofun
          rw [List.append_nil, List.append_nil] at h
          rw [hv, List.append_nil, h]
          rfl
        · have h := strtoul_blank l.blank_before l.value.dropLast (w := []) nofun
          rw [List.append_nil] at h
          rw [List.dropLast_append_of_ne_nil hv, h]
      rw [hdrop]
      exact ⟨fun h => Or.inr (Or.inr h), fun h => (h.resolve_left nofun).resolve_left fun hne => hne ha⟩
    · have hdrop : l.rest.dropLast = l.before ++ l.value ++ l.after.dropLast := by
        rw [hline, List.dropLast_append_of_ne_nil ha]
      rw [hdrop, strtoul_blank l.blank_before _ fun c hc => l.blank_after c (List.mem_of_mem_dropLast hc)]
      exact ⟨fun _ => Or.inr (Or.inl ha), fun _ => rfl⟩

/-- A space follows the colon. -/
theorem rest_space_iff (l : FieldLine) :
    (∃ u, l.rest = ch ' ' :: u) ↔ (l.before ++ l.value ++ l.after).head? = some (ch ' ') := by
  unfold rest
  cases l.before ++ l.value ++ l.after with
  | nil =>
    constructor
    · rintro ⟨u, hu⟩
      cases hcr : l.cr with
      | true =>
        rw [hcr] at hu
        exact absurd (List.cons.inj hu).1 (by decide)
      | false =>
        rw [hcr] at hu
        cases hu
    · exact nofun
  | cons c s =>
    constructor
    · rintro ⟨u, hu⟩
      exact congrArg some (List.cons.inj hu).1
    · intro h
      obtain rfl := Option.some.inj h
      exact ⟨_, rfl⟩

/-- A line of the grammar is read as its pair, or as a length of its number,
exactly if it is `Heeded`. -/
theorem heeded_iff (l : FieldLine) : l.Heeded ↔ field l.text = .of l.pair.1 l.pair.2 ∨
    ∃ v w, field l.text = .length v ∧ .of l.pair.1 l.pair.2 = Field.length w ∧ strtoul (cstr v) = strtoul (cstr w) := by
  rw [Heeded]
  by_cases hname : l.name.map tolower = str "content-length"
  · have hof : Field.of l.pair.1 l.pair.2 = .length l.value := if_pos hname
    have hread : ∀ {v}, field l.text = .length v ↔ ∃ u, l.rest = ch ' ' :: u ∧ u.dropLast = v := by
      intro v
      have hlength : Field.of l.pair.1 v = .length v := if_pos hname
      rw [← hlength, field_text]
    rw [if_pos hname, hof, Counted, ← rest_space_iff]
    constructor
    · rintro ⟨⟨u, hu⟩, h⟩
      exact Or.inr ⟨_, _, hread.mpr ⟨u, hu, rfl⟩, rfl, (strtoul_rest_iff hu).mpr h⟩
    · intro h
      have hlength : ∃ v, field l.text = .length v ∧ strtoul (cstr v) = strtoul (cstr l.value) := by
        rcases h with h | ⟨v, w, hv, hw, hnum⟩
        · exact ⟨_, h, rfl⟩
        · obtain rfl := Field.length.inj hw
          exact ⟨v, hv, hnum⟩
      obtain ⟨v, hv, hnum⟩ := hlength
      obtain ⟨u, hu, rfl⟩ := hread.mp hv
      exact ⟨⟨u, hu⟩, (strtoul_rest_iff hu).mp hnum⟩
  · have hof : ∀ v, Field.of l.pair.1 l.pair.2 ≠ .length v := fun v => by
      rw [Field.of, if_neg (show ¬ l.pair.1 = str "content-length" from hname)]
      split <;> nofun
    rw [if_neg hname, ← field_text_iff]
    constructor
    · exact Or.inl
    · rintro (h | ⟨v, w, -, h, -⟩)
      · exact h
      · exact absurd h (hof w)

/-- **A heeded line does what its pair does.** -/
theorem Heeded.put_text {l : FieldLine} (h : l.Heeded) (m : Message) :
    m.put (field l.text) = m.put (.of l.pair.1 l.pair.2) := by
  rcases l.heeded_iff.mp h with h | ⟨v, w, hv, hw, hnum⟩
  · rw [h]
  · rw [hv, hw, Message.put, Message.put, hnum]

end FieldLine

/-! ### Blocks of lines -/

/-- The lines, each with an LF. -/
def unlines (ls : List Str) : Str := ls.flatMap (· ++ [ch '\n'])

@[simp] theorem unlines_cons (l : Str) (ls : List Str) : unlines (l :: ls) = l ++ ch '\n' :: unlines ls := by
  simp [unlines]

theorem read_unlines_append : ∀ (ls : List Str) (m : Message) (s : Str),
    m.read (unlines ls ++ s) = (m.read (unlines ls)).read s
  | [], _, _ => rfl
  | l :: ls, m, s => by
    rw [unlines_cons, List.append_assoc, List.cons_append, read_append, read_append, read_unlines_append ls]

/-- A block of lines without LF is the fold of its fields. -/
theorem read_unlines : ∀ (ls : List Str) (m : Message), (∀ l ∈ ls, ch '\n' ∉ l) →
    m.read (unlines ls) = (ls.map field).foldl Message.put m
  | [], _, _ => rfl
  | l :: ls, m, h => by
    rw [unlines_cons, read_append, read_line m (h l List.mem_cons_self),
      read_unlines ls _ fun k hk => h k (List.mem_cons_of_mem _ hk), List.map_cons, List.foldl_cons]

theorem FieldLine.text_line (l : FieldLine) : ch '\n' ∉ l.text := by
  have hblank : ∀ s : Str, (∀ c ∈ s, Blank c) → ch '\n' ∉ s := fun s hs hm => by
    rcases hs _ hm with h | h
    · exact absurd h (by decide)
    · exact absurd h (by decide)
  have hname : ch '\n' ∉ l.name := fun hm => absurd (l.name_token _ hm).2 (by decide)
  have hend : ch '\n' ∉ if l.cr then [ch '\r'] else [] := by
    split <;> decide
  simp only [text, rest, List.mem_append, List.mem_cons, not_or]
  exact ⟨hname, by decide, ⟨⟨hblank _ l.blank_before, l.value_line.2⟩, hblank _ l.blank_after⟩, hend⟩

/-- A line somewhere in a block. -/
theorem parseHeaders_line (m : Message) (l : FieldLine) (pre : List Str) (post : Str) :
    m.parseHeaders (unlines pre ++ l.text ++ ch '\n' :: post) =
      .ok (((m.read (unlines pre)).put (field l.text)).read post) := by
  rw [parseHeaders_eq, List.append_assoc, read_unlines_append, read_append, read_line _ l.text_line]

/-- A block of lines that do what their pairs do. -/
theorem read_heeded : ∀ (ls : List FieldLine) (m : Message), (∀ l ∈ ls, l.Heeded) →
    m.read (unlines (ls.map FieldLine.text)) =
      ((ls.map FieldLine.pair).map fun e => Field.of e.1 e.2).foldl Message.put m
  | [], _, _ => rfl
  | l :: ls, m, h => by
    rw [List.map_cons, unlines_cons, read_append, read_line _ l.text_line,
      (h l List.mem_cons_self).put_text m, read_heeded ls _ fun k hk => h k (List.mem_cons_of_mem _ hk)]
    rfl

/-- **Header lines are read by the grammar of HTTP exactly if they are `Heeded`.**
A line does in every place of every block what its pair does, if and only if its
blanks are those that `parseHeaders` expects; so blocks of such lines with the
same pairs are read as the same message. -/
theorem field_grammar (proto : Str) :
    (∀ l : FieldLine,
      (∀ (pre : List Str) (post : Str),
        ({ proto := proto } : Message).parseHeaders (unlines pre ++ l.text ++ ch '\n' :: post) =
          .ok (((({ proto := proto } : Message).read (unlines pre)).put (.of l.pair.1 l.pair.2)).read post)) ↔
        l.Heeded) ∧
      (∀ l : FieldLine, (∀ m : Message, m.put (field l.text) = m.put (.of l.pair.1 l.pair.2)) ↔ l.Heeded) ∧
      ∀ (m : Message) (ls ks : List FieldLine) (post : Str), ls.map FieldLine.pair = ks.map FieldLine.pair →
        (∀ l ∈ ls, l.Heeded) → (∀ k ∈ ks, k.Heeded) →
        m.parseHeaders (unlines (ls.map FieldLine.text) ++ post) =
          m.parseHeaders (unlines (ks.map FieldLine.text) ++ post) := by
  refine ⟨fun l => ?_, fun l => ⟨fun h => ?_, fun h m => h.put_text m⟩, ?_⟩
  · constructor
    · -- the line alone, and behind a line that announces a length
      intro h
      have hput : ∀ pre, (({ proto := proto } : Message).read (unlines pre)).put (field l.text) =
          (({ proto := proto } : Message).read (unlines pre)).put (.of l.pair.1 l.pair.2) := fun pre => by
        have hline := h pre []
        rw [parseHeaders_line] at hline
        exact Except.ok.inj hline
      exact l.heeded_iff.mpr (eq_of_put_eq (hput []) (hput [str "Content-Length: 1\r"]))
    · intro hl pre post
      rw [parseHeaders_line, hl.put_text]
  · exact l.heeded_iff.mpr (eq_of_put_eq (h { proto := proto }) (h { proto := proto, contentLength := 1 }))
  · intro m ls ks post hpair hls hks
    rw [parseHeaders_eq, parseHeaders_eq, read_unlines_append, read_unlines_append, read_heeded ls m hls,
      read_heeded ks m hks, hpair]

/-- A line of the header `Host` with the value `ab`, or of `Content-Length` with
the value `5`, with the given blanks and line end. -/
def demoLine (host : Bool) (before after : Str) (cr : Bool) (hb : (before.all fun c => Blank c) = true)
    (ha : (after.all fun c => Blank c) = true) : FieldLine where
  name := if host then str "Host" else str "Content-Length"
  before := before
  value := if host then str "ab" else str "5"
  after := after
  cr := cr
  name_ne := by cases host <;> decide
  name_token := by
    cases host with
    | true => exact forall_mem_of_all (by decide)
    | false => exact forall_mem_of_all (by decide)
  blank_before := forall_mem_of_all hb
  blank_after := forall_mem_of_all ha
  value_line := by cases host <;> decide
  value_start c hc := by
    cases host with
    | true =>
      obtain rfl := Option.some.inj hc
      decide
    | false =>
      obtain rfl := Option.some.inj hc
      decide
  value_end c hc := by
    cases host with
    | true =>
      obtain rfl := Option.some.inj hc
      decide
    | false =>
      obtain rfl := Option.some.inj hc
      decide

/-- The spelling that is read. -/
def hostSpaced : FieldLine := demoLine true [ch ' '] [] true (by decide) (by decide)

/-- No blank behind the colon. -/
def hostTight : FieldLine := demoLine true [] [] true (by decide) (by decide)

/-- A bare LF. -/
def hostBare : FieldLine := demoLine true [ch ' '] [] false (by decide) (by decide)

/-- One header in three spellings: the first is read, the second is skipped and
the third loses its last letter. -/
theorem spellings_differ :
    ([hostSpaced, hostTight, hostBare].map FieldLine.text = [str "Host: ab\r", str "Host:ab\r", str "Host: ab"] ∧
        ∀ l ∈ [hostSpaced, hostTight, hostBare], l.pair = (str "host", str "ab")) ∧
      ({} : Message).parseHeaders (str "Host: ab\r\n") = .ok (({} : Message).put (.entry (str "host") (str "ab"))) ∧
      ({} : Message).parseHeaders (str "Host:ab\r\n") = .ok {} ∧
      ({} : Message).parseHeaders (str "Host: ab\n") = .ok (({} : Message).put (.entry (str "host") (str "a"))) ∧
      ¬ ∀ l : FieldLine, ({} : Message).parseHeaders (l.text ++ [ch '\n']) =
        .ok (({} : Message).put (.of l.pair.1 l.pair.2)) := by
  refine ⟨⟨by decide, by decide⟩, rfl, rfl, rfl, fun h => ?_⟩
  have hskip : ({} : Message).parseHeaders (hostTight.text ++ [ch '\n']) = .ok {} := rfl
  have hput := congrArg (fun m => m.headers.toList) (Except.ok.inj (hskip.symm.trans (h hostTight)))
  cases hput

theorem demoLine_host {after : Str} {cr : Bool} {hb} {ha} (h : after.length = if cr then 0 else 1) :
    (demoLine true [ch ' '] after cr hb ha).Heeded := by
  have hname : (demoLine true [ch ' '] after cr hb ha).name.map tolower ≠ str "content-length" :=
    (by decide : (str "Host").map tolower ≠ str "content-length")
  have hvalue : (demoLine true [ch ' '] after cr hb ha).value ≠ [] := (by decide : str "ab" ≠ [])
  rw [FieldLine.Heeded, if_neg hname, FieldLine.Spaced, if_neg hvalue]
  exact ⟨rfl, h⟩

theorem demoLine_length {b after : Str} {hb} {ha} : (demoLine false (ch ' ' :: b) after true hb ha).Heeded := by
  have hname : (demoLine false (ch ' ' :: b) after true hb ha).name.map tolower = str "content-length" :=
    (by decide : (str "Content-Length").map tolower = str "content-length")
  rw [FieldLine.Heeded, if_pos hname]
  exact ⟨rfl, Or.inl rfl⟩

/-- The same two headers before a CRLF, and the one before a bare LF with a blank
more, the other with blanks on both sides. -/
theorem field_grammar_host :
    ({} : Message).parseHeaders (unlines ([hostSpaced, demoLine false [ch ' '] [] true (by decide) (by decide)].map
        FieldLine.text) ++ str "\r\n") =
      ({} : Message).parseHeaders (unlines ([demoLine true [ch ' '] [ch '\t'] false (by decide) (by decide),
        demoLine false [ch ' ', ch ' '] [ch ' '] true (by decide) (by decide)].map FieldLine.text) ++ str "\r\n") :=
  (field_grammar []).2.2 {} [hostSpaced, demoLine false [ch ' '] [] true (by decide) (by decide)]
    [demoLine true [ch ' '] [ch '\t'] false (by decide) (by decide),
      demoLine false [ch ' ', ch ' '] [ch ' '] true (by decide) (by decide)] (str "\r\n") rfl
    (List.forall_mem_cons.mpr ⟨demoLine_host rfl, List.forall_mem_singleton.mpr demoLine_length⟩)
    (List.forall_mem_cons.mpr ⟨demoLine_host rfl, List.forall_mem_singleton.mpr demoLine_length⟩)

/-- A `Content-Length` that a bare LF follows at once loses its last digit. -/
theorem not_heeded_of_bare {l : FieldLine} (hname : l.name.map tolower = str "content-length")
    (hd : ∀ c ∈ l.value, isdigit c = true) (hne : l.value ≠ []) (h0 : l.value.head? ≠ some (ch '0'))
    (hlt : value l.value < 2 ^ 64) (hcr : l.cr = false) (ha : l.after = []) : ¬ l.Heeded := by
  have hnul : ∀ {s : Str}, (∀ c ∈ s, c ∈ l.value) → (0 : UInt8) ∉ s := fun hs h =>
    absurd (hd 0 (hs 0 h)) (by decide)
  rw [FieldLine.Heeded, if_pos hname, FieldLine.Counted, hcr, ha]
  rintro ⟨-, h | h | h⟩
  · cases h
  · exact h rfl
  · rw [cstr_of_notMem (hnul fun c hc => List.mem_of_mem_dropLast hc), cstr_of_notMem (hnul fun c hc => hc)] at h
    exact strtoul_dropLast_ne hd hne h0 hlt h

/-! ### The announced length -/

/-- The block announces the length `n`: `parseHeaders` sets it, and behind any
start line the constructors take a body of `n` bytes. -/
structure Announces (headerstr : Str) (n : ℕ) : Prop where
  length : ∀ m : Message, ∃ m', m.parseHeaders headerstr = .ok m' ∧ m'.contentLength.toNat = n
  request : 0 < n → ∀ start body, Free 13 10 start → body.length = n →
    ∃ r out, Request.ofHeadBody (start ++ str "\r\n" ++ headerstr) body = .ok (r, out) ∧ r.body = body
  response : 0 < n → ∀ code₀ start body r out, Free 13 10 start → body.length = n →
    Response.ofHeadBody code₀ (start ++ str "\r\n" ++ headerstr) body = .ok (r, out) → r.body = body

/-- A line of another name, without its CRLF. -/
def OtherLine (l : Str) : Prop := ch '\n' ∉ l ∧ fieldName (l ++ [13]) ≠ some (str "content-length")

/-- A line of another name does not set the length. -/
theorem length?_eq_none {header : Str} (h : fieldName header ≠ some (str "content-length")) :
    (field header).length? = none := by
  rw [field_eq]
  cases hn : fieldName header with
  | none => rfl
  | some key =>
    have hkey : key ≠ str "content-length" := fun e => h (hn.trans (congrArg some e))
    simp only [Field.of, if_neg hkey]
    split <;> rfl

theorem OtherLine.length?_eq {l : Str} (h : OtherLine l) : (field (l ++ [13])).length? = none := length?_eq_none h.2

section Length

variable {pre post : List Str} {nm d : Str}

/-- The length that a block with one `Content-Length` line announces. -/
theorem contentLength_block (m : Message) (hpre : ∀ l ∈ pre, OtherLine l) (hpost : ∀ l ∈ post, OtherLine l)
    (hnm : nm.map tolower = str "content-length") (hd : ∀ c ∈ d, isdigit c = true) :
    (m.read (block 13 10 (pre ++ (nm ++ str ": " ++ d) :: post))).contentLength = strtoul d := by
  have hnot : ∀ {c : UInt8}, c.toNat < 48 → c ∉ d := fun hc hm => by
    have := (toNat_digit (hd _ hm)).1
    omega
  have hlf : ∀ l ∈ pre ++ (nm ++ str ": " ++ d) :: post, ch '\n' ∉ l := by
    intro l hl
    rcases List.mem_append.mp hl with hl | hl
    · exact (hpre l hl).1
    · rcases List.mem_cons.mp hl with rfl | hl
      · have hnlf : ch '\n' ∉ nm := fun hm => by
          have hlow : tolower (ch '\n') ∈ nm.map tolower := List.mem_map_of_mem hm
          rw [hnm] at hlow
          exact absurd hlow (by decide)
        simp only [List.mem_append, not_or]
        exact ⟨⟨hnlf, by decide⟩, hnot (by decide)⟩
      · exact (hpost l hl).1
  have hother : ∀ ls : List Str, (∀ l ∈ ls, OtherLine l) →
      (ls.map fun l => field (l ++ [13])).filterMap Field.length? = [] := fun ls hls => by
    rw [List.filterMap_map, List.filterMap_eq_nil_iff]
    exact fun l hl => (hls l hl).length?_eq
  rw [read_block m hlf, foldl_put_contentLength, List.map_append, List.map_cons, List.filterMap_append,
    List.filterMap_cons, field_length_line hnm, hother pre hpre, hother post hpost]
  simp only [Field.length?, List.nil_append, List.getLast?_singleton, Option.map_some, Option.getD_some]
  rw [cstr_of_notMem (hnot (by decide))]

/-- A message takes a body of the length that it read. -/
theorem body_of_length {proto s body : Str}
    (h : (({ proto := proto } : Message).read s).contentLength.toNat = body.length) :
    (Message.parsed proto s body).body = body := by
  rw [Message.parsed, Message.withBody, if_neg fun hm => hm.2 h.symm]

/-- A start line in front of a header block is found and cut off. -/
theorem find_start {start : Str} (hs : Free 13 10 start) (headerstr : Str) :
    find (str "\r\n") (start ++ str "\r\n" ++ headerstr) = some start.length ∧
      (start ++ str "\r\n" ++ headerstr).drop (start.length + 2) = headerstr := by
  have htext : start ++ str "\r\n" ++ headerstr = start ++ 13 :: 10 :: headerstr := by simp
  rw [htext, crlf_eq]
  refine ⟨find_pair_append (by decide) hs headerstr, ?_⟩
  rw [List.drop_length_add_append]
  rfl

/-- A block announces a length as soon as it is read as that length. -/
theorem announces_of_length {headerstr : Str} {n : ℕ}
    (h : ∀ m : Message, (m.read headerstr).contentLength.toNat = n) : Announces headerstr n where
  length m := ⟨_, parseHeaders_eq m headerstr, h m⟩
  request _ start body hs hb := by
    obtain ⟨hfind, hdrop⟩ := find_start hs headerstr
    refine ⟨_, _, Request.ofHeadBody_some hfind body, ?_⟩
    rw [Request.built, hdrop]
    exact body_of_length ((h _).trans hb.symm)
  response _ code₀ start body r out hs hb hr := by
    obtain ⟨hfind, hdrop⟩ := find_start hs headerstr
    rw [Response.ofHeadBody_some code₀ hfind] at hr
    generalize substrFrom _ _ = message at hr
    cases message with
    | error e => cases hr
    | ok message =>
      obtain ⟨rfl, -⟩ := Prod.mk.inj (Except.ok.inj hr)
      rw [Response.built, hdrop]
      exact body_of_length ((h _).trans hb.symm)

/-- **A `Content-Length` of decimal digits is announced exactly if the digits do
not start with a zero, or write a number below 8.** -/
theorem announces_iff (hpre : ∀ l ∈ pre, OtherLine l) (hpost : ∀ l ∈ post, OtherLine l)
    (hnm : nm.map tolower = str "content-length") (hd : ∀ c ∈ d, isdigit c = true) (hne : d ≠ [])
    (hlt : value d < 2 ^ 64) :
    Announces (block 13 10 (pre ++ (nm ++ str ": " ++ d) :: post)) (value d) ↔
      d.head? ≠ some (ch '0') ∨ value d < 8 := by
  have hread : ∀ m : Message,
      (m.read (block 13 10 (pre ++ (nm ++ str ": " ++ d) :: post))).contentLength = strtoul d :=
    fun m => contentLength_block m hpre hpost hnm hd
  rw [← strtoul_eq_value_iff hd hne hlt]
  constructor
  · intro h
    obtain ⟨m', hm', hlen⟩ := h.length {}
    rw [parseHeaders_eq] at hm'
    rw [← hread {}, Except.ok.inj hm']
    exact hlen
  · intro h
    exact announces_of_length fun m => by rw [hread m, h]

end Length

/-- Seven bytes, with a zero in front. -/
theorem announces_iff_seven :
    Announces (block 13 10 ([] ++ (str "Content-Length" ++ str ": " ++ str "07") :: [[]])) (value (str "07")) ↔
      (str "07").head? ≠ some (ch '0') ∨ value (str "07") < 8 :=
  announces_iff (fun _ h => (List.not_mem_nil h).elim) (by simp [OtherLine, fieldName, find]) (by decide)
    (forall_mem_of_all (by decide)) (by decide) (by decide)

/-- Ten bytes, with a zero in front, are announced as eight, and the body is
thrown away. -/
theorem leading_zero_is_octal :
    value (str "010") = 10 ∧
      (({} : Message).read (str "Content-Length: 010\r\n\r\n")).contentLength = 8 ∧
      ∃ r out, Request.ofHeadBody (str "POST / HTTP/1.1\r\nContent-Length: 010\r\n\r\n") (str "0123456789") =
        .ok (r, out) ∧ r.body = [] := by
  have hfind : find (str "\r\n") (str "POST / HTTP/1.1\r\nContent-Length: 010\r\n\r\n") = some 15 := by decide
  exact ⟨by decide, by decide, _, _, Request.ofHeadBody_some hfind (str "0123456789"), by decide⟩

end NiceHttp
