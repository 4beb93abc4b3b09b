/-
# Responses

`http::Response`: the constructor from a received head and body, and
`toString`. The reason phrase is what is left of the first line behind
`proto.length() + digits + 2` letters, where `digits` is the length of the
second word; `code` is read by `atoi` from the place of that word on, which is
not terminated at its end. `code` has no initialiser: what the constructor
finds there is the parameter `code₀`.

The word counter is a `short`, so a line of more than 2^16 words sets `proto`
(and then `code` and `digits`) again; up to there the words behind the second
are idle (`foldl_readWord_idle`), and a printed first line is read back
(`scan_line`).

Key definitions: `Response`, `Response.ofHeadBody`, `Response.toString`.
Key theorems: `Response.scan_line`, `Response.ofHeadBody_some`.
-/
import NiceHttp.Request

namespace NiceHttp

open CString Text

/-- `http::Response`. -/
structure Response extends Message where
  code : Int16
  message : Str := []

namespace Response

/-- The state of the word loop of the constructor: `j`, the place of the next
word in the line, `digits` and the fields. -/
structure Scan where
  j : Int16 := 0
  pos : ℕ := 0
  digits : Int32 := 0
  res : Response

/-- One turn of the word loop. -/
def readWord (line : Str) (s : Scan) (word : Str) : Scan where
  j := s.j + 1
  pos := s.pos + word.length + 1
  digits := if s.j = 1 then Int32.ofNat word.length else s.digits
  res :=
    if s.j = 0 then { s.res with proto := word }
    else if s.j = 1 then { s.res with code := (atoi (cstr (line.drop s.pos))).toInt16 }
    else s.res

/-- The word loop over the first line. -/
def readWords (code₀ : Int16) (line : Str) : Scan :=
  (splitView (ch ' ') line).foldl (readWord line) { res := { code := code₀ } }

/-- The place of the message in the first line. -/
def Scan.messagePos (s : Scan) : ℕ := sizeT (s.res.proto.length + s.digits.toInt + 2)

/-- `Response::Response(head, body)`: the response, and what is printed. -/
def ofHeadBody (code₀ : Int16) (head body : Str) : Except Exn (Response × List Str) :=
  match find (str "\r\n") head with
  | none => .ok ({ code := code₀ }, [str "Malformed request"])
  | some i => do
    let line ← substr head 0 i
    let s := readWords code₀ line
    let message ← substrFrom line s.messagePos
    let r := { s.res with message := message }
    let (m, out) ← r.toMessage.finish head i body
    .ok ({ r with toMessage := m }, out)

/-- `Response::toString`. -/
def toString (r : Response) (carriageReturn : Bool := true) : Str :=
  r.format (r.proto ++ str " " ++ printInt r.code.toInt ++ str " " ++ r.message)
    (Message.endline carriageReturn)

/-! ### The word loop -/

/-- The word loop leaves a fresh message but for the protocol. -/
theorem readWords_toMessage (code₀ : Int16) (line : Str) :
    (readWords code₀ line).res.toMessage = { proto := (readWords code₀ line).res.proto } := by
  refine List.foldlRecOn (motive := fun s : Scan => s.res.toMessage = { proto := s.res.proto }) _ _ rfl
    fun s hs w _ => ?_
  simp only [readWord]
  split_ifs
  · rw [hs]
  · exact hs
  · exact hs

/-- The protocol is a word of the line, or empty. -/
theorem word_readWords (code₀ : Int16) (line : Str) :
    Request.Word line (readWords code₀ line).res.proto := by
  refine List.foldlRecOn (motive := fun s : Scan => Request.Word line s.res.proto) _ _
    (Request.word_nil line) fun s hs w hw => ?_
  simp only [readWord]
  split_ifs
  · exact mem_splitView hw
  · exact hs
  · exact hs

theorem ofNat_ne {n : ℕ} (h2 : 2 ≤ n) (h : n < 65536) : Int16.ofNat n ≠ 0 ∧ Int16.ofNat n ≠ 1 := by
  obtain ⟨h0, h1, -⟩ := ofNat_word n
  exact ⟨fun e => by have := h0.mp e; omega, fun e => by have := h1.mp e; omega⟩

/-- As long as the counter does not come round, the words behind the second
change nothing. -/
theorem foldl_readWord_idle (line : Str) : ∀ (ws : List Str) (s : Scan) (n : ℕ), s.j = Int16.ofNat n →
    2 ≤ n → n + ws.length ≤ 65536 →
    (ws.foldl (readWord line) s).res = s.res ∧ (ws.foldl (readWord line) s).digits = s.digits
  | [], _, _, _, _, _ => ⟨rfl, rfl⟩
  | w :: ws, s, n, hj, h2, hn => by
    rw [List.length_cons] at hn
    obtain ⟨h0, h1⟩ := ofNat_ne h2 (by omega)
    have hres : (readWord line s w).res = s.res := by
      simp only [readWord, hj, if_neg h0, if_neg h1]
    have hdig : (readWord line s w).digits = s.digits := by
      simp only [readWord, hj, if_neg h1]
    have hj' : (readWord line s w).j = Int16.ofNat (n + 1) := by
      simp only [readWord, hj, ofNat_succ]
    rw [List.foldl_cons, ← hres, ← hdig]
    exact foldl_readWord_idle line ws _ (n + 1) hj' (by omega) (by omega)

theorem length_splitOn (c : UInt8) : ∀ s : Str, (s.splitOn c).length = s.count c + 1
  | [] => by simp
  | u :: s => by
    rw [List.splitOn_cons_eq_if_modifyHead, List.count_cons]
    split
    · rw [List.length_cons, length_splitOn c s]
    · rw [List.length_modifyHead, length_splitOn c s, Nat.add_zero]

/-- A printed `short` has at most six letters. -/
theorem length_printInt (z : Int16) : (printInt z.toInt).length ≤ 6 := by
  have hlo := z.le_toInt
  have hhi := z.toInt_lt
  have hlen : (decimal z.toInt.natAbs).length ≤ 5 := by
    rw [decimal, List.length_map]
    exact (Nat.length_toDigits_le_iff (by decide) (by decide)).mpr (by omega)
  unfold printInt
  split
  · rw [List.length_cons]
    omega
  · omega

/-- What a C function sees of a space and what follows does not go on with a digit. -/
theorem noDigit_cstr (t : Str) : NoDigit (cstr (ch ' ' :: t)) := fun c hc => by
  have : c = ch ' ' := by
    simpa [cstr, List.takeWhile_cons, eq_comm] using hc
  rw [this]
  decide

section Line

variable {proto message : Str}

/-- The printed first line, with its spaces as letters. -/
theorem line_eq (proto : Str) (code : Int16) (message : Str) :
    proto ++ str " " ++ printInt code.toInt ++ str " " ++ message =
      proto ++ ch ' ' :: (printInt code.toInt ++ ch ' ' :: message) := by
  have hstr : str " " = [ch ' '] := rfl
  simp only [hstr, List.append_assoc, List.cons_append, List.nil_append]

/-- Its words. -/
theorem splitView_line (hp : ch ' ' ∉ proto) (code : Int16) (message : Str) :
    splitView (ch ' ') (proto ++ ch ' ' :: (printInt code.toInt ++ ch ' ' :: message)) =
      proto :: printInt code.toInt :: message.splitOn (ch ' ') := by
  have hsp : ch ' ' ∉ printInt code.toInt := notMem_printInt (by decide)
  rw [splitView_of_ne_nil _ (by simp), List.splitOn_append_cons_self_of_not_mem hp,
    List.splitOn_append_cons_self_of_not_mem hsp]

/-- The code is read from the place of the second word on. -/
theorem atoi_line (proto : Str) (code : Int16) (message : Str) :
    (atoi (cstr ((proto ++ ch ' ' :: (printInt code.toInt ++ ch ' ' :: message)).drop (proto.length + 1)))).toInt16 =
      code := by
  have hdrop : (proto ++ ch ' ' :: (printInt code.toInt ++ ch ' ' :: message)).drop (proto.length + 1) =
      printInt code.toInt ++ ch ' ' :: message := by
    rw [List.drop_append]
    simp
  rw [hdrop, cstr_append (notMem_printInt (by decide)), atoi_printInt code (noDigit_cstr message)]

/-- The message is what is left behind the two words and their spaces. -/
theorem drop_line (proto : Str) (code : Int16) (message : Str) :
    (proto ++ ch ' ' :: (printInt code.toInt ++ ch ' ' :: message)).drop
      (proto.length + (printInt code.toInt).length + 2) = message := by
  have happ : proto ++ ch ' ' :: (printInt code.toInt ++ ch ' ' :: message) =
      (proto ++ ch ' ' :: (printInt code.toInt ++ [ch ' '])) ++ message := by simp
  rw [happ, List.drop_left' (by simp; omega)]

/-- **A printed first line is read back**, if its message has so few spaces
that the word counter does not come round. -/
theorem scan_line (code₀ code : Int16) (hp : ch ' ' ∉ proto) (hm : message.count (ch ' ') ≤ 65533) :
    let line := proto ++ str " " ++ printInt code.toInt ++ str " " ++ message
    let s := readWords code₀ line
    s.res = { proto := proto, code := code } ∧ substrFrom line s.messagePos = .ok message := by
  intro line s
  have hline : line = proto ++ ch ' ' :: (printInt code.toInt ++ ch ' ' :: message) := line_eq ..
  have hlen := length_printInt code
  -- the first two words, then the idle ones of the message
  have hs : s = (message.splitOn (ch ' ')).foldl (readWord line)
      { j := 2, pos := proto.length + 1 + (printInt code.toInt).length + 1,
        digits := Int32.ofNat (printInt code.toInt).length, res := { proto := proto, code := code } } := by
    have hcode : (atoi (cstr (line.drop (proto.length + 1)))).toInt16 = code := hline ▸ atoi_line ..
    have hsplit : splitView (ch ' ') line = proto :: printInt code.toInt :: message.splitOn (ch ' ') :=
      hline ▸ splitView_line hp ..
    simp only [s, readWords, hsplit, List.foldl_cons]
    congr 1
    simp [readWord, hcode]
  have hidle := foldl_readWord_idle line (message.splitOn (ch ' '))
    { j := 2, pos := proto.length + 1 + (printInt code.toInt).length + 1,
      digits := Int32.ofNat (printInt code.toInt).length, res := { proto := proto, code := code } } 2 rfl
    (le_refl 2) (by rw [length_splitOn]; omega)
  rw [← hs] at hidle
  obtain ⟨hres, hdig⟩ := hidle
  refine ⟨hres, ?_⟩
  have hpos : s.messagePos = proto.length + (printInt code.toInt).length + 2 := by
    rw [Scan.messagePos, hres, hdig]
    have : (Int32.ofNat (printInt code.toInt).length).toInt = (printInt code.toInt).length :=
      Int32.toInt_ofNat_of_lt (by omega)
    simp only [this, sizeT]
    rw [if_pos (by omega)]
    omega
  rw [hpos, substrFrom_ok (by rw [hline]; simp; omega), hline, drop_line]

end Line

/-! ### What the constructor leaves -/

/-- The response that the constructor leaves for a head with its first line end
at `i` and the message of that line. -/
def built (code₀ : Int16) (head : Str) (i : ℕ) (message body : Str) : Response where
  code := (readWords code₀ (head.take i)).res.code
  message := message
  toMessage := Message.parsed (readWords code₀ (head.take i)).res.proto (head.drop (i + 2)) body

/-- **The constructor throws only for the place of the message.** -/
theorem ofHeadBody_some (code₀ : Int16) {head : Str} {i : ℕ} (h : find (str "\r\n") head = some i)
    (body : Str) :
    ofHeadBody code₀ head body =
      (substrFrom (head.take i) (readWords code₀ (head.take i)).messagePos).map fun message =>
        (built code₀ head i message body,
          (({ proto := (readWords code₀ (head.take i)).res.proto } : Message).read
            (head.drop (i + 2))).report body) := by
  have hi := find_crlf_le h
  unfold ofHeadBody
  rw [h]
  simp only [substr_ok (Nat.zero_le _), List.drop_zero, bind, Except.bind, finish_eq _ hi]
  rw [readWords_toMessage]
  cases substrFrom (head.take i) (readWords code₀ (head.take i)).messagePos <;> rfl

end Response

end NiceHttp
