/-
# Requests

`http::Request`: the constructor from a received head and body, and
`toString`. The constructor splits the text before the first CRLF at spaces;
the word counter `j` is a `short`, so the three fields are the last words
whose place is 0, 1 or 2 modulo 2^16. What the constructor finds wrong it
prints, and goes on.

Key definitions: `Request`, `Request.ofHeadBody`, `Request.toString`,
`Request.built`.
Key theorems: `Request.ofHeadBody_some`, `Request.ofHeadBody_ok`,
`Request.word_readWords`.
-/
import NiceHttp.Message

namespace NiceHttp

open CString Text

/-- `http::Request`. -/
structure Request extends Message where
  method : Str := []
  uri : Str := []

/-! ### The word counter -/

/-- A `short` that counts to `n` is the number `k` if `n` is modulo 2^16. -/
theorem ofNat_eq_iff {n k : ℕ} (hk : k < 65536) : Int16.ofNat n = Int16.ofNat k ↔ n % 65536 = k := by
  rw [← Int16.toBitVec_inj, ← BitVec.toNat_inj]
  simp [Nat.mod_eq_of_lt hk]

/-- The numbers that the word loops ask for. -/
theorem ofNat_word (n : ℕ) : (Int16.ofNat n = 0 ↔ n % 65536 = 0) ∧ (Int16.ofNat n = 1 ↔ n % 65536 = 1) ∧
    (Int16.ofNat n = 2 ↔ n % 65536 = 2) :=
  ⟨ofNat_eq_iff (k := 0) (by decide), ofNat_eq_iff (k := 1) (by decide), ofNat_eq_iff (k := 2) (by decide)⟩

theorem ofNat_succ (n : ℕ) : Int16.ofNat n + 1 = Int16.ofNat (n + 1) := by
  rw [Int16.ofNat_add]
  rfl

namespace Request

/-! ### The constructor -/

/-- One turn of the word loop of the constructor, `j` and the fields. -/
def readWord : Int16 × Request → Str → Int16 × Request
  | (j, r), word =>
    (j + 1,
      if j = 0 then { r with method := word }
      else if j = 1 then { r with uri := word }
      else if j = 2 then { r with proto := word }
      else r)

/-- The word loop over the first line. -/
def readWords (line : Str) : Request := ((splitView (ch ' ') line).foldl readWord (0, {})).2

/-- `Request::Request(head, body)`: the request, and what is printed. -/
def ofHeadBody (head body : Str) : Except Exn (Request × List Str) :=
  match find (str "\r\n") head with
  | none => .ok ({}, [str "Malformed request"])
  | some i => do
    let line ← substr head 0 i
    let r := readWords line
    let (m, out) ← r.toMessage.finish head i body
    .ok ({ r with toMessage := m }, out)

/-- `Request::toString`. -/
def toString (r : Request) (carriageReturn : Bool := true) : Str :=
  r.format (r.method ++ str " " ++ r.uri ++ str " " ++ r.proto) (Message.endline carriageReturn)

/-- The word loop leaves a fresh message but for the protocol. -/
theorem readWords_toMessage (line : Str) :
    (readWords line).toMessage = { proto := (readWords line).proto } := by
  refine List.foldlRecOn (motive := fun s : Int16 × Request => s.2.toMessage = { proto := s.2.proto }) _ _ rfl
    fun s hs w _ => ?_
  simp only [readWord]
  split_ifs
  · exact hs
  · exact hs
  · rw [hs]
  · exact hs

/-- A piece of the line without a space. -/
def Word (line w : Str) : Prop := w <:+: line ∧ ch ' ' ∉ w

theorem word_nil (line : Str) : Word line [] := ⟨List.nil_infix, List.not_mem_nil⟩

/-- Each of the three fields is a word of the line, or empty. -/
theorem word_readWords (line : Str) :
    Word line (readWords line).method ∧ Word line (readWords line).uri ∧ Word line (readWords line).proto := by
  refine List.foldlRecOn (motive := fun s : Int16 × Request =>
    Word line s.2.method ∧ Word line s.2.uri ∧ Word line s.2.proto) _ _
    ⟨word_nil line, word_nil line, word_nil line⟩ fun s hs w hw => ?_
  have hword : Word line w := mem_splitView hw
  simp only [readWord]
  split_ifs
  · exact ⟨hword, hs.2.1, hs.2.2⟩
  · exact ⟨hs.1, hword, hs.2.2⟩
  · exact ⟨hs.1, hs.2.1, hword⟩
  · exact hs

/-! ### What the constructor leaves -/

theorem ofHeadBody_none {head : Str} (h : find (str "\r\n") head = none) (body : Str) :
    ofHeadBody head body = .ok ({}, [str "Malformed request"]) := by
  unfold ofHeadBody
  rw [h]

/-- The request that the constructor leaves for a head with its first line end
at `i`: the words of the first line, the header block and, unless its length
is wrong, the body. -/
def built (head : Str) (i : ℕ) (body : Str) : Request where
  method := (readWords (head.take i)).method
  uri := (readWords (head.take i)).uri
  toMessage := Message.parsed (readWords (head.take i)).proto (head.drop (i + 2)) body

/-- What it returns for a head with a first line, and what it prints. -/
theorem ofHeadBody_some {head : Str} {i : ℕ} (h : find (str "\r\n") head = some i) (body : Str) :
    ofHeadBody head body = .ok (built head i body,
      (({ proto := (readWords (head.take i)).proto } : Message).read (head.drop (i + 2))).report body) := by
  have hi := find_crlf_le h
  unfold ofHeadBody
  rw [h]
  simp only [substr_ok (Nat.zero_le _), List.drop_zero, bind, Except.bind, finish_eq _ hi]
  rw [readWords_toMessage]
  rfl

/-- **The constructor of a request never throws.** -/
theorem ofHeadBody_ok (head body : Str) : ∃ r out, ofHeadBody head body = .ok (r, out) := by
  cases hf : find (str "\r\n") head with
  | none => exact ⟨_, _, ofHeadBody_none hf body⟩
  | some i => exact ⟨_, _, ofHeadBody_some hf body⟩

end Request

end NiceHttp
