/-
# The words of the first line

Both constructors number the words of the first line with a 16-bit counter,
which comes round after 2^16 words: a field is the last word whose place is its
number modulo 2^16 (`Request.foldl_readWord`, `Response.foldl_readWord`). So a
request's fields are its first three words exactly if no later word of the
same number differs from them (`request_words_iff`), which needs more than
2^16 words (`lastAt_of_length_le`).

A response finds its message by the lengths of its first two words, and its
code by the second one: a line with fewer than two spaces has no place for the
message and throws, and without any line the code is never set
(`response_definite_iff`).

Key definitions: `lastAt`, `Locates`.
-/
import NiceHttp.Response
import Mathlib.Data.List.GetD

namespace NiceHttp

open CString Text

section Rounds

variable {α : Type*}

/-- The last entry whose place is `k` modulo `m`, or `d` if there is none. -/
def lastAt (m k : ℕ) (l : List α) (d : α) : α := l.getD (k + m * ((l.length - 1 - k) / m)) d

/-- A further entry counts if its place is `k` modulo `m`. -/
theorem lastAt_concat {m k : ℕ} (hk : k < m) (l : List α) (x d : α) :
    lastAt m k (l ++ [x]) d = if l.length % m = k then x else lastAt m k l d := by
  have hlen : (l ++ [x]).length - 1 - k = l.length - k := by simp
  rw [lastAt, lastAt, hlen]
  by_cases h : l.length % m = k
  · have hplace : k + m * ((l.length - k) / m) = l.length := by
      have hdiv := Nat.div_add_mod l.length m
      have hsub : l.length - k = m * (l.length / m) := by omega
      rw [hsub, Nat.mul_div_cancel_left _ (by omega)]
      omega
    rw [if_pos h, hplace, List.getD_append_right _ _ _ _ (le_refl _), Nat.sub_self]
    rfl
  · rw [if_neg h]
    rcases Nat.lt_or_ge k l.length with hlt | hge
    · -- the round of the last place is not complete, so the place is the same
      obtain ⟨n, hn⟩ : ∃ n, l.length - k = n + 1 := ⟨l.length - k - 1, by omega⟩
      have hdvd : ¬ m ∣ n + 1 := by
        rintro ⟨q, hq⟩
        refine h ?_
        have hl : l.length = k + m * q := by omega
        rw [hl, Nat.add_mul_mod_self_left, Nat.mod_eq_of_lt hk]
      have hpred : l.length - 1 - k = n := by omega
      have hle : m * (n / m) ≤ n := Nat.mul_div_le n m
      rw [hn, hpred, Nat.succ_div, if_neg hdvd, Nat.add_zero]
      exact List.getD_append _ _ _ _ (by omega)
    · have hne : k ≠ l.length := fun e => h (e ▸ Nat.mod_eq_of_lt (e ▸ hk))
      have h0 : l.length - k = 0 := by omega
      have h1 : l.length - 1 - k = 0 := by omega
      rw [h0, h1, Nat.zero_div, Nat.mul_zero, Nat.add_zero,
        List.getD_eq_default _ _ (by rw [List.length_append, List.length_singleton]; omega),
        List.getD_eq_default _ _ hge]

/-- As long as the counter does not come round, it counts places. -/
theorem lastAt_of_length_le {m k : ℕ} {l : List α} (hk : k < m) (h : l.length ≤ m) (d : α) :
    lastAt m k l d = l.getD k d := by
  rw [lastAt, Nat.div_eq_of_lt (by omega), Nat.mul_zero, Nat.add_zero]

end Rounds

/-! ### Requests -/

/-- **The word loop of a request.** -/
theorem Request.foldl_readWord (ws : List Str) :
    ws.foldl readWord (0, {}) =
      (Int16.ofNat ws.length,
        { method := lastAt 65536 0 ws [], uri := lastAt 65536 1 ws [], proto := lastAt 65536 2 ws [] }) := by
  induction ws using List.reverseRecOn with
  | nil => rfl
  | append_singleton ws w ih =>
    obtain ⟨h0, h1, h2⟩ := ofNat_word ws.length
    calc (ws ++ [w]).foldl readWord (0, {})
        = readWord (Int16.ofNat ws.length,
            { method := lastAt 65536 0 ws [], uri := lastAt 65536 1 ws [], proto := lastAt 65536 2 ws [] }) w := by
          rw [List.foldl_append, ih, List.foldl_cons, List.foldl_nil]
      _ = (Int16.ofNat (ws ++ [w]).length,
            { method := lastAt 65536 0 (ws ++ [w]) [], uri := lastAt 65536 1 (ws ++ [w]) [],
              proto := lastAt 65536 2 (ws ++ [w]) [] }) := by
          rw [readWord, ofNat_succ, List.length_append, List.length_singleton, lastAt_concat (by decide),
            lastAt_concat (by decide), lastAt_concat (by decide)]
          simp only [h0, h1, h2]
          congr 1
          split_ifs <;> first | rfl | omega

/-- The empty line has no word for the loop and one empty word for the reader. -/
theorem lastAt_splitView (c : UInt8) (line : Str) (k : ℕ) :
    lastAt 65536 k (splitView c line) [] = lastAt 65536 k (line.splitOn c) [] := by
  rcases eq_or_ne line [] with rfl | h
  · have h : ∀ n, ([[]] : List Str).getD n [] = []
      | 0 => rfl
      | _ + 1 => rfl
    rw [List.splitOn_nil, splitView, if_pos rfl, lastAt, lastAt, List.getD_nil, h]
  · rw [splitView_of_ne_nil c h]

/-- The fields of a request are the last words of their number. -/
theorem Request.readWords_eq (line : Str) :
    readWords line = { method := lastAt 65536 0 (line.splitOn (ch ' ')) [],
                       uri := lastAt 65536 1 (line.splitOn (ch ' ')) [],
                       proto := lastAt 65536 2 (line.splitOn (ch ' ')) [] } := by
  rw [readWords, foldl_readWord, lastAt_splitView, lastAt_splitView, lastAt_splitView]

/-- In a line of at most 2^16 words these are the first three. -/
theorem Request.readWords_few {line : Str} (h : line.count (ch ' ') < 65536) :
    readWords line = { method := (line.splitOn (ch ' ')).getD 0 [],
                       uri := (line.splitOn (ch ' ')).getD 1 [],
                       proto := (line.splitOn (ch ' ')).getD 2 [] } := by
  have hlen : (line.splitOn (ch ' ')).length ≤ 65536 := by
    rw [Response.length_splitOn]
    omega
  rw [readWords_eq, lastAt_of_length_le (by decide) hlen, lastAt_of_length_le (by decide) hlen,
    lastAt_of_length_le (by decide) hlen]

/-- **The fields of a request are the first three words of its first line
exactly if the last words of their numbers are.** -/
theorem request_words_iff {head : Str} {i : ℕ} (h : find (str "\r\n") head = some i) (body : Str) :
    ∃ r out, Request.ofHeadBody head body = .ok (r, out) ∧
      ((r.method = ((head.take i).splitOn (ch ' ')).getD 0 [] ∧
          r.uri = ((head.take i).splitOn (ch ' ')).getD 1 [] ∧
          r.proto = ((head.take i).splitOn (ch ' ')).getD 2 []) ↔
        ∀ k < 3, lastAt 65536 k ((head.take i).splitOn (ch ' ')) [] = ((head.take i).splitOn (ch ' ')).getD k []) := by
  refine ⟨_, _, Request.ofHeadBody_some h body, ?_⟩
  simp only [Request.built, parsed_proto, Request.readWords_eq]
  constructor
  · rintro ⟨h0, h1, h2⟩ k hk
    rcases (by omega : k = 0 ∨ k = 1 ∨ k = 2) with rfl | rfl | rfl
    · exact h0
    · exact h1
    · exact h2
  · intro hk
    exact ⟨hk 0 (by decide), hk 1 (by decide), hk 2 (by decide)⟩

theorem request_words_iff_get :
    ∃ r out, Request.ofHeadBody (str "GET / HTTP/1.1\r\n\r\n") [] = .ok (r, out) ∧
      ((r.method = (((str "GET / HTTP/1.1\r\n\r\n").take 14).splitOn (ch ' ')).getD 0 [] ∧
          r.uri = (((str "GET / HTTP/1.1\r\n\r\n").take 14).splitOn (ch ' ')).getD 1 [] ∧
          r.proto = (((str "GET / HTTP/1.1\r\n\r\n").take 14).splitOn (ch ' ')).getD 2 []) ↔
        ∀ k < 3, lastAt 65536 k (((str "GET / HTTP/1.1\r\n\r\n").take 14).splitOn (ch ' ')) [] =
          (((str "GET / HTTP/1.1\r\n\r\n").take 14).splitOn (ch ' ')).getD k []) :=
  request_words_iff (by decide) []

/-- Spaces in front of a word are empty words. -/
theorem splitOn_replicate {c : UInt8} {w : Str} (hw : c ∉ w) : ∀ n : ℕ,
    (List.replicate n c ++ w).splitOn c = List.replicate n [] ++ [w]
  | 0 => List.splitOn_eq_singleton hw
  | n + 1 => by
    have h := List.splitOn_append_cons_self_of_not_mem (List.not_mem_nil (a := c)) (List.replicate n c ++ w)
    rw [List.nil_append] at h
    rw [List.replicate_succ, List.cons_append, h, splitOn_replicate hw n]
    rfl

/-- A request line with 2^16 - 3 empty words and one more behind its three. -/
def manyWords : Str :=
  str "GET" ++ ch ' ' :: (str "/a" ++ ch ' ' :: (str "HTTP/1.1" ++ ch ' ' ::
    (List.replicate 65533 (ch ' ') ++ str "X")))

theorem splitOn_manyWords :
    manyWords.splitOn (ch ' ') =
      (str "GET" :: str "/a" :: str "HTTP/1.1" :: List.replicate 65533 []) ++ [str "X"] := by
  rw [manyWords, List.splitOn_append_cons_self_of_not_mem (by decide),
    List.splitOn_append_cons_self_of_not_mem (by decide), List.splitOn_append_cons_self_of_not_mem (by decide),
    splitOn_replicate (by decide), List.cons_append, List.cons_append, List.cons_append]

/-- The counter comes round and the last word becomes the method. -/
theorem many_words_overwrite_method :
    find (str "\r\n") (manyWords ++ str "\r\n\r\n") = some manyWords.length ∧
      (manyWords.splitOn (ch ' ')).getD 0 [] = str "GET" ∧
      ∃ r out, Request.ofHeadBody (manyWords ++ str "\r\n\r\n") [] = .ok (r, out) ∧ r.method = str "X" := by
  have hcr : ch '\r' ∉ manyWords := by
    simp only [manyWords, List.mem_append, List.mem_cons, List.mem_replicate]
    decide
  have hfind : find (str "\r\n") (manyWords ++ str "\r\n\r\n") = some manyWords.length :=
    (find_skip hcr (str "\n") (str "\r\n\r\n")).trans (congrArg some (Nat.zero_add _))
  refine ⟨hfind, ?_, _, _, Request.ofHeadBody_some hfind [], ?_⟩
  · rw [splitOn_manyWords]
    rfl
  · have hlen : (str "GET" :: str "/a" :: str "HTTP/1.1" :: List.replicate 65533 []).length = 65536 := by
      rw [List.length_cons, List.length_cons, List.length_cons, List.length_replicate]
    simp only [Request.built, Request.readWords_eq, List.take_left, splitOn_manyWords]
    rw [lastAt_concat (by decide), if_pos (by rw [hlen])]

/-! ### Responses -/

/-- **The word loop of a response**, but for the code. -/
theorem Response.foldl_readWord (line : Str) (code₀ : Int16) (ws : List Str) :
    let s := ws.foldl (readWord line) { res := { code := code₀ } }
    s.j = Int16.ofNat ws.length ∧ s.res.proto = lastAt 65536 0 ws [] ∧
      s.digits = Int32.ofNat (lastAt 65536 1 ws []).length := by
  induction ws using List.reverseRecOn with
  | nil => exact ⟨rfl, rfl, rfl⟩
  | append_singleton ws w ih =>
    obtain ⟨hj, hproto, hdigits⟩ := ih
    obtain ⟨h0, h1, -⟩ := ofNat_word ws.length
    simp only [List.foldl_append, List.foldl_cons, List.foldl_nil, readWord, hj, hdigits, h0, h1,
      List.length_append, List.length_singleton, lastAt_concat (by decide : 0 < 65536),
      lastAt_concat (by decide : 1 < 65536)]
    refine ⟨ofNat_succ _, ?_, ?_⟩
    · split_ifs
      · rfl
      · exact hproto
      · exact hproto
    · split_ifs <;> rfl

/-- From the second word on the code does not depend on what was there before. -/
theorem Response.foldl_readWord_code (line : Str) (c d : Int16) (ws : List Str) :
    let s := ws.foldl (readWord line) { res := { code := c } }
    let t := ws.foldl (readWord line) { res := { code := d } }
    s.pos = t.pos ∧ if ws.length < 2 then s.res.code = c else s.res.code = t.res.code := by
  induction ws using List.reverseRecOn with
  | nil => exact ⟨rfl, rfl⟩
  | append_singleton ws w ih =>
    obtain ⟨hpos, hcode⟩ := ih
    have hs := (foldl_readWord line c ws).1
    have ht := (foldl_readWord line d ws).1
    obtain ⟨h0, h1, -⟩ := ofNat_word ws.length
    simp only [List.foldl_append, List.foldl_cons, List.foldl_nil, readWord, hs, ht, h0, h1, hpos,
      List.length_append, List.length_singleton, true_and]
    by_cases hlen : ws.length < 2
    · rw [if_pos hlen] at hcode
      rcases (by omega : ws.length = 0 ∨ ws.length = 1) with h | h
      · simp [h, hcode]
      · simp [h]
    · rw [if_neg hlen] at hcode
      rw [if_neg (by omega)]
      split_ifs
      · exact hcode
      · rfl
      · exact hcode

/-! ### The place of the message -/

/-- The lengths of the words and the spaces between them make up the line. -/
theorem sum_length_splitOn (c : UInt8) : ∀ s : Str, ((s.splitOn c).map List.length).sum + s.count c = s.length
  | [] => by simp
  | u :: s => by
    have ih := sum_length_splitOn c s
    rw [List.splitOn_cons_eq_if_modifyHead, List.count_cons, List.length_cons]
    by_cases hu : (u == c) = true
    · rw [if_pos hu, if_pos hu, List.map_cons, List.sum_cons, List.length_nil]
      omega
    · obtain ⟨w, ws, hw⟩ := List.exists_cons_of_ne_nil (List.splitOn_ne_nil c s)
      rw [hw, List.map_cons, List.sum_cons] at ih
      rw [if_neg hu, if_neg hu, hw, List.modifyHead_cons, List.map_cons, List.sum_cons, List.length_cons]
      omega

theorem length_getD_le : ∀ (ws : List Str) (i : ℕ), (ws.getD i []).length ≤ (ws.map List.length).sum
  | [], i => by simp
  | w :: ws, 0 => by simp
  | w :: ws, i + 1 => by
    have ih := length_getD_le ws i
    rw [List.getD_cons_succ, List.map_cons, List.sum_cons]
    omega

/-- Two words at different places are not longer than all together. -/
theorem length_getD_add_le : ∀ (ws : List Str) {i j : ℕ}, i ≠ j →
    (ws.getD i []).length + (ws.getD j []).length ≤ (ws.map List.length).sum
  | [], _, _, _ => by simp
  | w :: ws, 0, 0, h => absurd rfl h
  | w :: ws, 0, j + 1, _ => by
    have := length_getD_le ws j
    rw [List.getD_cons_zero, List.getD_cons_succ, List.map_cons, List.sum_cons]
    omega
  | w :: ws, i + 1, 0, _ => by
    have := length_getD_le ws i
    rw [List.getD_cons_zero, List.getD_cons_succ, List.map_cons, List.sum_cons]
    omega
  | w :: ws, i + 1, j + 1, h => by
    have ih := length_getD_add_le ws (i := i) (j := j) (by omega)
    rw [List.getD_cons_succ, List.getD_cons_succ, List.map_cons, List.sum_cons]
    omega

/-- The length of the word that the constructors take for number `k`. -/
def wordLength (k : ℕ) (line : Str) : ℕ := (lastAt 65536 k (line.splitOn (ch ' ')) []).length

theorem wordLength_add_le (line : Str) :
    wordLength 0 line + wordLength 1 line + line.count (ch ' ') ≤ line.length := by
  have hsum := sum_length_splitOn (ch ' ') line
  have hle := length_getD_add_le (line.splitOn (ch ' '))
    (i := 0 + 65536 * (((line.splitOn (ch ' ')).length - 1 - 0) / 65536))
    (j := 1 + 65536 * (((line.splitOn (ch ' ')).length - 1 - 1) / 65536)) (by omega)
  unfold wordLength lastAt
  omega

/-- With fewer than two spaces the two words are all there is. -/
theorem wordLength_add_eq {line : Str} (h : line.count (ch ' ') < 2) :
    wordLength 0 line + wordLength 1 line + line.count (ch ' ') = line.length := by
  have hsum := sum_length_splitOn (ch ' ') line
  have hlen := Response.length_splitOn (ch ' ') line
  unfold wordLength
  rw [lastAt_of_length_le (by decide) (by omega), lastAt_of_length_le (by decide) (by omega)]
  match hws : line.splitOn (ch ' '), hlen with
  | [a], hlen =>
    rw [hws] at hsum
    simpa using hsum
  | [a, b], hlen =>
    rw [hws] at hsum
    simpa using hsum
  | [], hlen => simp at hlen
  | _ :: _ :: _ :: _, hlen =>
    simp only [List.length_cons] at hlen
    omega

/-- The first line has a place for the message. The second word is measured by
an `int`, so one of 2^31 letters counts as less than it has. -/
def Locates (line : Str) : Prop :=
  if wordLength 1 line < 2 ^ 31 then 2 ≤ line.count (ch ' ')
  else
    0 ≤ wordLength 0 line + (wordLength 1 line : ℤ).bmod (2 ^ 32) + 2 ∨
      2 ^ 64 + (wordLength 0 line + (wordLength 1 line : ℤ).bmod (2 ^ 32) + 2) ≤ line.length

theorem Response.messagePos_eq (code₀ : Int16) (line : Str) :
    (readWords code₀ line).messagePos =
      sizeT (wordLength 0 line + (wordLength 1 line : ℤ).bmod (2 ^ 32) + 2) := by
  obtain ⟨-, hproto, hdigits⟩ := foldl_readWord line code₀ (splitView (ch ' ') line)
  rw [Scan.messagePos, readWords, hproto, hdigits, Int32.toInt_ofNat', lastAt_splitView, lastAt_splitView]
  rfl

/-- The place of the message is in the line exactly if the line locates it. -/
theorem sizeT_le_iff (line : Str) :
    sizeT (wordLength 0 line + (wordLength 1 line : ℤ).bmod (2 ^ 32) + 2) ≤ line.length ↔ Locates line := by
  have hle := wordLength_add_le line
  have heq := @wordLength_add_eq line
  unfold Locates
  generalize wordLength 0 line = a at *
  generalize wordLength 1 line = b at *
  split
  · rename_i hb
    have hmod : (b : ℤ).bmod (2 ^ 32) = b := Int.bmod_eq_of_le (by omega) (by omega)
    rw [hmod, sizeT, if_pos (by omega)]
    constructor
    · intro h
      by_contra hcount
      have := heq (by omega)
      omega
    · intro h
      omega
  · rename_i hb
    have hself := Int.bmod_eq_self_sub_mul_bdiv b (2 ^ 32)
    have hhi : (b : ℤ).bmod (2 ^ 32) < 2 ^ 31 := Int.bmod_lt (by decide)
    have hlo : -2 ^ 31 ≤ (b : ℤ).bmod (2 ^ 32) := Int.le_bmod (by decide)
    generalize (b : ℤ).bmod (2 ^ 32) = v at *
    have hv : v ≤ b - 2 ^ 32 := by omega
    unfold sizeT
    split <;> omega

/-- A line with a second word has a space. -/
theorem count_pos_of_wordLength {line : Str} (h : 0 < wordLength 1 line) : 0 < line.count (ch ' ') := by
  by_contra h0
  have hlen := Response.length_splitOn (ch ' ') line
  rw [wordLength, lastAt_of_length_le (by decide) (by omega), List.getD_eq_default _ _ (by omega)] at h
  exact absurd h (by decide)

theorem Locates.count_pos {line : Str} (h : Locates line) : 0 < line.count (ch ' ') := by
  unfold Locates at h
  split at h
  · omega
  · exact count_pos_of_wordLength (by omega)

/-- With a second word the two readings of a line differ in nothing. -/
theorem Response.readWords_definite {line : Str} (h : 0 < line.count (ch ' ')) (c d : Int16) :
    (readWords c line).res.proto = (readWords d line).res.proto ∧
      (readWords c line).res.code = (readWords d line).res.code := by
  have hne : line ≠ [] := fun e => by
    rw [e] at h
    exact absurd h (by decide)
  have hlen := length_splitOn (ch ' ') line
  rw [← splitView_of_ne_nil (ch ' ') hne] at hlen
  have hcode := (foldl_readWord_code line c d (splitView (ch ' ') line)).2
  rw [if_neg (by omega)] at hcode
  exact ⟨(foldl_readWord line c _).2.1.trans (foldl_readWord line d _).2.1.symm, hcode⟩

/-- **A response is definite, and nothing is thrown, exactly if the head has a
first line and this has a place for the message.** -/
theorem response_definite_iff (head body : Str) :
    (∃ r out, ∀ code₀, Response.ofHeadBody code₀ head body = .ok (r, out)) ↔
      ∃ i, find (str "\r\n") head = some i ∧ Locates (head.take i) := by
  constructor
  · rintro ⟨r, out, h⟩
    cases hf : find (str "\r\n") head with
    | none =>
      -- without a line the code is what it was
      have hcode : ∀ code₀, r.code = code₀ := fun code₀ => by
        have he := h code₀
        unfold Response.ofHeadBody at he
        rw [hf] at he
        simp only [Except.ok.injEq, Prod.mk.injEq] at he
        rw [← he.1]
      exact absurd ((hcode 0).symm.trans (hcode 1)) (by decide)
    | some i =>
      refine ⟨i, rfl, ?_⟩
      by_contra hno
      have he := h 0
      rw [Response.ofHeadBody_some 0 hf, Response.messagePos_eq, substrFrom,
        if_pos (not_le.mp fun hle => hno ((sizeT_le_iff _).mp hle))] at he
      cases he
  · rintro ⟨i, hf, hl⟩
    have hpos := (sizeT_le_iff _).mpr hl
    -- the run that finds a zero in the code stands for all
    have hsame : ∀ code₀, Response.ofHeadBody code₀ head body = Response.ofHeadBody 0 head body := fun code₀ => by
      obtain ⟨hproto, hcode⟩ := Response.readWords_definite hl.count_pos code₀ 0
      rw [Response.ofHeadBody_some code₀ hf, Response.ofHeadBody_some 0 hf, Response.messagePos_eq,
        Response.messagePos_eq, hproto]
      simp only [Response.built, hproto, hcode]
    have hok := Response.ofHeadBody_some 0 hf body
    rw [Response.messagePos_eq, substrFrom_ok hpos] at hok
    exact ⟨_, _, fun code₀ => (hsame code₀).trans hok⟩

/-- A status line without a reason phrase throws, and a head without a line end
leaves the code as it was. -/
theorem short_status_line_throws :
    Response.ofHeadBody 0 (str "HTTP/1.1 200\r\n\r\n") [] = .error .outOfRange ∧
      Response.ofHeadBody 0 (str "HTTP/1.1 200 OK") [] ≠ Response.ofHeadBody 1 (str "HTTP/1.1 200 OK") [] := by
  have h : ∀ code₀, Response.ofHeadBody code₀ (str "HTTP/1.1 200 OK") [] =
      .ok ({ code := code₀ }, [str "Malformed request"]) := fun code₀ => by
    have hf : find (str "\r\n") (str "HTTP/1.1 200 OK") = none := by decide
    unfold Response.ofHeadBody
    rw [hf]
  refine ⟨?_, fun he => ?_⟩
  · have hf : find (str "\r\n") (str "HTTP/1.1 200\r\n\r\n") = some 12 := by decide
    have hpos : sizeT (wordLength 0 (str "HTTP/1.1 200") + (wordLength 1 (str "HTTP/1.1 200") : ℤ).bmod (2 ^ 32) + 2) =
        13 := by decide
    have htake : (str "HTTP/1.1 200\r\n\r\n").take 12 = str "HTTP/1.1 200" := by decide
    rw [Response.ofHeadBody_some 0 hf, htake, Response.messagePos_eq, hpos]
    rfl
  · rw [h, h] at he
    simp only [Except.ok.injEq, Prod.mk.injEq, Response.mk.injEq] at he
    exact absurd he.1.2.1 (by decide)

end NiceHttp
