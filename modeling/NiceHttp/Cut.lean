/-
# Where a received message is cut

`recv_http` looks for the empty line in each block by itself, and takes a body
that is not empty for the sign that the head is complete. So a run cuts what
it read behind the first empty line that has a byte of its own block behind
it (`foldl_append_cut`), and this is the first empty line of the text exactly
if that line and the byte behind it are in one block, or nothing follows
(`cut_iff`). A head that fills its block takes the body in as well
(`full_head_takes_body`).

Key definitions: `chunksOf`, `Chunk.padded`.
Key theorems: `Recv.run_consumed`, `foldl_append_cut`.
-/
import NiceHttp.Recv
import NiceHttp.Lib.Blocks

namespace NiceHttp

open CString Text

/-- The chunks among the results of `recv`. -/
def chunksOf (ns : List RecvResult) : List Chunk :=
  ns.filterMap fun
    | .data c => some c
    | .eof => none
    | .error => none

/-- The texts of the chunks among the results. -/
abbrev textsOf (ns : List RecvResult) : List Str := (chunksOf ns).map Chunk.bytes

/-- **What a run reads.** A run over chunks without NUL that used up its results
appended all chunks, and all but the last were full. -/
theorem Recv.run_consumed : ∀ {ns : List RecvResult} {s : Recv} {r : Str × Str}, s.buff = .zero →
    (∀ c ∈ chunksOf ns, 0 ∉ c.bytes) → s.run ns = some (r, []) →
    r = (textsOf ns).foldl append (s.head, s.body) ∧ Blocks pktBlockSize (textsOf ns)
  | [], _, _, _, _, h => by cases h
  | .eof :: ns, s, r, _, _, h => by
    rw [run, turn] at h
    simp only [Option.some.injEq, Prod.mk.injEq] at h
    obtain ⟨rfl, rfl⟩ := h
    exact ⟨rfl, trivial⟩
  | .error :: ns, s, r, hs, _, h => by
    rw [run, turn_error hs] at h
    simp only [Option.some.injEq, Prod.mk.injEq] at h
    obtain ⟨rfl, rfl⟩ := h
    exact ⟨rfl, trivial⟩
  | .data c :: ns, s, r, hs, hc, h => by
    rw [run, turn_data hs (hc c List.mem_cons_self)] at h
    by_cases hlt : c.bytes.length < pktBlockSize
    · rw [if_pos hlt] at h
      simp only [Option.some.injEq, Prod.mk.injEq] at h
      obtain ⟨rfl, rfl⟩ := h
      exact ⟨rfl, c.le, fun hne => absurd rfl hne, trivial⟩
    · rw [if_neg hlt] at h
      obtain ⟨hr, hb⟩ := run_consumed rfl (fun d hd => hc d (List.mem_cons_of_mem _ hd)) h
      exact ⟨hr, c.le, fun _ => Nat.le_antisymm c.le (not_lt.mp hlt), hb⟩

/-! ### The cut of a fold of appends -/

/-- A body that is not empty takes all that follows. -/
theorem foldl_append_body (head : Str) : ∀ (ts : List Str) (body : Str), body ≠ [] →
    ts.foldl Recv.append (head, body) = (head, body ++ ts.flatten)
  | [], body, _ => by simp
  | t :: ts, body, h => by
    have hstep : Recv.append (head, body) t = (head, body ++ t) := if_pos h
    rw [List.foldl_cons, hstep, foldl_append_body head ts (body ++ t) (by simp [h]), List.append_assoc,
      List.flatten_cons]

/-- **The cut.** The head ends with the first empty line that has a byte of its
block behind it. -/
theorem foldl_append_cut : ∀ (ts : List Str) (head : Str),
    ts.foldl Recv.append (head, []) =
      match firstSeen (str "\r\n\r\n") ts with
      | some i => (head ++ ts.flatten.take (i + 4), ts.flatten.drop (i + 4))
      | none => (head ++ ts.flatten, [])
  | [], head => by simp [firstSeen]
  | t :: ts, head => by
    have hlen : (str "\r\n\r\n").length = 4 := rfl
    rw [List.foldl_cons, List.flatten_cons, firstSeen, hlen, Recv.append, if_neg (by simp)]
    -- with no byte of the block behind the empty line the whole block goes into the head
    have hgo : ts.foldl Recv.append (head ++ t, []) =
        match (firstSeen (str "\r\n\r\n") ts).map (· + t.length) with
        | some i => (head ++ (t ++ ts.flatten).take (i + 4), (t ++ ts.flatten).drop (i + 4))
        | none => (head ++ (t ++ ts.flatten), []) := by
      rw [foldl_append_cut ts (head ++ t)]
      cases firstSeen (str "\r\n\r\n") ts with
      | none => rw [List.append_assoc]; rfl
      | some i =>
        have hi : i + t.length + 4 = t.length + (i + 4) := by omega
        simp only [Option.map_some, hi, List.append_assoc]
        rw [List.take_length_add_append, List.drop_length_add_append]
    cases hf : find (str "\r\n\r\n") t with
    | none => exact hgo
    | some i =>
      simp only
      by_cases hi : i + 4 < t.length
      · have hne : t.drop (i + 4) ≠ [] := fun e => by
          rw [List.drop_eq_nil_iff] at e
          omega
        rw [if_pos hi, List.nil_append, foldl_append_body _ ts _ hne]
        simp only [List.take_append_of_le_length hi.le, List.drop_append_of_le_length hi.le]
      · rw [if_neg hi, List.nil_append, List.take_of_length_le (by omega), List.drop_eq_nil_of_le (by omega)]
        exact hgo

/-- Cuts of a text are equal if their places are. -/
theorem cut_at_inj {l : Str} {a b : ℕ} (ha : a ≤ l.length) (hb : b ≤ l.length) :
    (l.take a, l.drop a) = (l.take b, l.drop b) ↔ a = b := by
  constructor
  · intro h
    have hlen := congrArg (fun s => s.1.length) h
    simp only [List.length_take] at hlen
    omega
  · rintro rfl
    rfl

/-- The cut of a text in blocks: the first empty line is the place, if it is
seen. -/
theorem foldl_append_eq_cut {ts : List Str} (hb : Blocks pktBlockSize ts) {p : ℕ}
    (hp : find (str "\r\n\r\n") ts.flatten = some p) :
    cut ts.flatten = some (ts.foldl Recv.append ([], [])) ↔
      p + 4 = ts.flatten.length ∨ p / pktBlockSize = (p + 4) / pktBlockSize := by
  have hlen : (str "\r\n\r\n").length = 4 := rfl
  have hpos : 0 < pktBlockSize := by decide
  have hle : p + 4 ≤ ts.flatten.length := (find_le hp).resolve_right nofun
  have hcut : cut ts.flatten = some (ts.flatten.take (p + 4), ts.flatten.drop (p + 4)) := by
    rw [cut, hp]
    rfl
  rw [hcut, Option.some_inj, foldl_append_cut]
  cases hi : firstSeen (str "\r\n\r\n") ts with
  | none =>
    -- the text is cut at its end
    have hend : (([] : Str) ++ ts.flatten, ([] : Str)) =
        (ts.flatten.take ts.flatten.length, ts.flatten.drop ts.flatten.length) := by
      rw [List.take_length, List.drop_length, List.nil_append]
    have hno : ¬ Seen pktBlockSize (str "\r\n\r\n") ts.flatten p := firstSeen_none hpos hb hi p
    simp only [hend]
    rw [cut_at_inj hle (le_refl _)]
    constructor
    · exact Or.inl
    · rintro (h | h)
      · exact h
      · by_contra hne
        exact hno ⟨find_some hp, by omega, h⟩
  | some i =>
    obtain ⟨hseen, hfirst⟩ := firstSeen_some hpos hb hi
    have hpi : p ≤ i := by
      by_contra h
      exact find_first hp i (by omega) hseen.start
    have hbehind := hseen.behind
    simp only [List.nil_append]
    rw [cut_at_inj hle (by omega)]
    constructor
    · intro h
      obtain rfl : p = i := by omega
      exact Or.inr hseen.block
    · rintro (h | h)
      · omega
      · -- the first empty line is seen, so it is the first that is seen
        have hsp : Seen pktBlockSize (str "\r\n\r\n") ts.flatten p := ⟨find_some hp, by omega, h⟩
        rcases Nat.lt_or_ge p i with hlt | hge
        · exact absurd hsp (hfirst p hlt)
        · omega

/-! ### Full blocks -/

/-- A full block: a text with a run of `a` in the middle. -/
def Chunk.padded (front back : Str) (h : front.length + back.length ≤ pktBlockSize) : Chunk where
  bytes := front ++ List.replicate (pktBlockSize - front.length - back.length) (ch 'a') ++ back
  pos := by
    have : 0 < pktBlockSize := by decide
    simp only [List.length_append, List.length_replicate]
    omega
  le := by
    simp only [List.length_append, List.length_replicate]
    omega

/-- The part of a padded block before its back. -/
theorem Chunk.padded_eq {front back : Str} (h : front.length + back.length ≤ pktBlockSize) :
    ∃ a, (padded front back h).bytes = a ++ back ∧ a.length = pktBlockSize - back.length ∧
      ∀ x, x ≠ ch 'a' → x ∉ front → x ∉ a := by
  refine ⟨front ++ List.replicate (pktBlockSize - front.length - back.length) (ch 'a'), rfl, ?_, fun x hx hf => ?_⟩
  · simp only [List.length_append, List.length_replicate]
    omega
  · simp only [List.mem_append, List.mem_replicate, not_or, not_and]
    exact ⟨hf, fun _ => hx⟩

theorem Chunk.length_padded {front back : Str} (h : front.length + back.length ≤ pktBlockSize) :
    (padded front back h).bytes.length = pktBlockSize := by
  obtain ⟨a, ha, hlen, -⟩ := padded_eq h
  rw [ha, List.length_append]
  omega

theorem Chunk.zero_notMem_padded {front back : Str} (h : front.length + back.length ≤ pktBlockSize)
    (hf : 0 ∉ front) (hb : 0 ∉ back) : 0 ∉ (padded front back h).bytes := by
  obtain ⟨a, ha, -, hno⟩ := padded_eq h
  rw [ha, List.mem_append, not_or]
  exact ⟨hno 0 (by decide) hf, hb⟩

/-- A pattern whose first letter is not in front of the back is found in the back. -/
theorem find_padded {front back : Str} (h : front.length + back.length ≤ pktBlockSize) {x : UInt8}
    (hx : x ≠ ch 'a') (hf : x ∉ front) (pat t : Str) :
    find (x :: pat) ((Chunk.padded front back h).bytes ++ t) =
      (find (x :: pat) (back ++ t)).map (· + (pktBlockSize - back.length)) := by
  obtain ⟨a, ha, hlen, hno⟩ := Chunk.padded_eq h
  rw [ha, List.append_assoc, ← hlen]
  exact find_skip (hno x hx hf) pat _

/-! ### What a call reads -/

theorem recvHttp_consumed {ns : List RecvResult} {r : Str × Str} (h : recvHttp ns = some (r, []))
    (h0 : 0 ∉ bytesOf (chunksOf ns)) :
    r = (textsOf ns).foldl Recv.append ([], []) ∧ Blocks pktBlockSize (textsOf ns) := by
  refine Recv.run_consumed rfl (fun c hc hm => h0 ?_) h
  exact List.mem_flatten.mpr ⟨c.bytes, List.mem_map.mpr ⟨c, hc, rfl⟩, hm⟩

/-- **The cut is right exactly if the first empty line and the byte behind it
are in one block, or nothing is behind it.** The results `ns` are those that
the call consumed. -/
theorem cut_iff {ns : List RecvResult} {head body : Str} (h : recvHttp ns = some ((head, body), []))
    (h0 : 0 ∉ bytesOf (chunksOf ns)) {p : ℕ}
    (hp : find (str "\r\n\r\n") (bytesOf (chunksOf ns)) = some p) :
    cut (bytesOf (chunksOf ns)) = some (head, body) ↔
      p + 4 = (bytesOf (chunksOf ns)).length ∨ p / pktBlockSize = (p + 4) / pktBlockSize := by
  obtain ⟨hr, hb⟩ := recvHttp_consumed h h0
  rw [hr]
  exact foldl_append_eq_cut hb hp

/-- A start line that fills its block. -/
def longLine : Chunk := .padded (str "POST /") (str " HTTP/1.1\r\n") (by decide)

/-- The end of its head, and a body of one byte. -/
def lastBlock : Chunk := ⟨str "Content-Length: 1\r\n\r\nx", by decide, by decide⟩

/-- A head that ends inside the second block is cut right. -/
theorem cut_iff_second_block :
    cut (bytesOf (chunksOf [.data longLine, .data lastBlock])) =
      some (longLine.bytes ++ str "Content-Length: 1\r\n\r\n", str "x") := by
  have hlen : longLine.bytes.length = 4096 := Chunk.length_padded _
  have h0 : 0 ∉ longLine.bytes := Chunk.zero_notMem_padded _ (by decide) (by decide)
  have hbytes : bytesOf (chunksOf [.data longLine, .data lastBlock]) = longLine.bytes ++ lastBlock.bytes := by
    simp [bytesOf, chunksOf]
  have hfind : ∀ t, find (str "\r\n\r\n") (longLine.bytes ++ t) =
      (find (str "\r\n\r\n") (str " HTTP/1.1\r\n" ++ t)).map (· + 4085) :=
    find_padded _ (x := ch '\r') (by decide) (by decide) (str "\n\r\n")
  have hfirst : Recv.append ([], []) longLine.bytes = (longLine.bytes, []) := by
    have hf := hfind []
    rw [List.append_nil] at hf
    rw [Recv.append, if_neg (by simp), hf]
    rfl
  have hsecond : Recv.append (longLine.bytes, []) lastBlock.bytes =
      (longLine.bytes ++ str "Content-Length: 1\r\n\r\n", str "x") := rfl
  have hrecv : recvHttp [.data longLine, .data lastBlock] =
      some ((longLine.bytes ++ str "Content-Length: 1\r\n\r\n", str "x"), []) := by
    rw [recvHttp, Recv.run, Recv.turn_data rfl h0, if_neg (by rw [hlen]; decide), hfirst]
    simp only
    rw [Recv.run, Recv.turn_data rfl (by decide), if_pos (by decide), hsecond]
  refine (cut_iff hrecv ?_ (p := 4113) ?_).mpr (Or.inr (by decide))
  · rw [hbytes, List.mem_append, not_or]
    exact ⟨h0, by decide⟩
  · rw [hbytes, hfind]
    decide

/-! ### A head that fills its block -/

/-- The head of a `POST` with one byte of body, as long as a block. -/
def postHead : Chunk :=
  .padded (str "POST /") (str " HTTP/1.1\r\nContent-Length: 1\r\n\r\n") (by decide)

/-- Its body. -/
def postBody : Chunk := ⟨str "x", by decide, by decide⟩

/-- A head that fills its block takes in the body, which stays empty. -/
theorem full_head_takes_body :
    0 ∉ bytesOf [postHead, postBody] ∧
      cut (bytesOf [postHead, postBody]) = some (postHead.bytes, postBody.bytes) ∧
      recvHttp [.data postHead, .data postBody] = some ((postHead.bytes ++ postBody.bytes, []), []) := by
  have hlen : postHead.bytes.length = 4096 := Chunk.length_padded _
  have h0 : 0 ∉ postHead.bytes := Chunk.zero_notMem_padded _ (by decide) (by decide)
  have hbytes : bytesOf [postHead, postBody] = postHead.bytes ++ postBody.bytes := by simp [bytesOf]
  -- the empty line ends at the last byte of the first block
  have hfind : ∀ t, (find (str "\r\n\r\n") (str " HTTP/1.1\r\nContent-Length: 1\r\n\r\n" ++ t)) = some 28 →
      find (str "\r\n\r\n") (postHead.bytes ++ t) = some 4092 := fun t ht => by
    exact (find_padded _ (x := ch '\r') (by decide) (by decide) (str "\n\r\n") t).trans
      (congrArg (Option.map (· + 4064)) ht)
  have hhead : Recv.append ([], []) postHead.bytes = (postHead.bytes, []) := by
    have hf := hfind [] (by decide)
    rw [List.append_nil] at hf
    rw [Recv.append, if_neg (by simp), hf]
    simp only
    rw [List.take_of_length_le (by omega), List.drop_eq_nil_of_le (by omega)]
    rfl
  have hbody : Recv.append (postHead.bytes, []) postBody.bytes = (postHead.bytes ++ postBody.bytes, []) := rfl
  refine ⟨?_, ?_, ?_⟩
  · rw [hbytes]
    simp only [List.mem_append, not_or]
    exact ⟨h0, by decide⟩
  · have hend : postHead.bytes.length = 4092 + 4 := hlen
    rw [hbytes, cut, hfind _ (by decide), Option.map_some, List.take_left' hend, List.drop_left' hend]
  · rw [recvHttp, Recv.run, Recv.turn_data rfl h0, if_neg (by rw [hlen]; decide), hhead]
    simp only
    rw [Recv.run, Recv.turn_data rfl (by decide), if_pos (by decide), hbody]

end NiceHttp
