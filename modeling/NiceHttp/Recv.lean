/-
# Receiving a message

`NiceHTTP::recv_http`: the loop over the results of `recv`. Its state is what
is read so far of the head and the body, and the buffer. A turn reads the
buffer up to its first NUL, appends the text (`Recv.append`) and stops if the
last byte of the buffer is zero. When the list of results ends the call is
still waiting in `recv`, and the run is `none`.

The buffer is all zero at the start of each turn (`Recv.turn_again`), so a
turn sees exactly what `recv` wrote (`Block.view_write`): it appends the text
of the result, and whether it stops depends on the result alone
(`Recv.turn_eq`). A chunk without NUL stops the loop exactly if it is shorter
than the buffer, so a run over such chunks is a fold over those up to the first
short one (`Recv.run_chunks`), and loses no byte (`foldl_append_text`).

Key definitions: `Block`, `Chunk`, `RecvResult.stops`, `Recv`, `Recv.turn`,
`recvHttp`, `consumed`.
Key theorems: `Recv.turn_eq`, `Recv.run_chunks`.
-/
import NiceHttp.Message

namespace NiceHttp

open CString Text

/-- `PKT_BLOCK_SIZE`. -/
def pktBlockSize : ℕ := 4096

/-- The array `buff`. -/
structure Block where
  bytes : Str
  length_eq : bytes.length = pktBlockSize

/-- What one `recv` puts at the start of the buffer. -/
structure Chunk where
  bytes : Str
  pos : 0 < bytes.length
  le : bytes.length ≤ pktBlockSize

/-- The result of a `recv`: data, the end of the stream (0) or an error (-1). -/
inductive RecvResult where
  | data (c : Chunk)
  | eof
  | error

/-- The bytes that a `recv` put into the buffer. -/
def RecvResult.bytes : RecvResult → Str
  | .data c => c.bytes
  | .eof => []
  | .error => []

/-- The results after which the loop asks for no more: all but a chunk that
fills the buffer and does not end with NUL. -/
def RecvResult.stops : RecvResult → Bool
  | .data c => c.bytes.length < pktBlockSize || c.bytes.getLastD 0 = 0
  | .eof => true
  | .error => true

namespace Block

/-- The zeroed buffer. -/
def zero : Block := ⟨List.replicate pktBlockSize 0, List.length_replicate⟩

/-- The buffer after a `recv` wrote the chunk. -/
def write (b : Block) (c : Chunk) : Block where
  bytes := c.bytes ++ b.bytes.drop c.bytes.length
  length_eq := by
    have h1 := b.length_eq
    have h2 := c.le
    simp only [List.length_append, List.length_drop]
    omega

/-- `std::string_view b(buff)`. -/
def view (b : Block) : Str := cstr b.bytes

/-- `buff[PKT_BLOCK_SIZE-1]`. -/
def last (b : Block) : UInt8 := b.bytes.getLastD 0

end Block

/-- The variables of the loop. -/
structure Recv where
  head : Str := []
  body : Str := []
  buff : Block := .zero

/-- What a turn of the loop does: go on, or stop with the results. -/
inductive Turn where
  | again (s : Recv)
  | done (head body : Str)

namespace Recv

/-- The branches that append the text `b` to the head and the body. -/
def append (s : Str × Str) (b : Str) : Str × Str :=
  if s.2 ≠ [] then (s.1, s.2 ++ b)
  else
    match find (str "\r\n\r\n") b with
    | some headerEnd => (s.1 ++ b.take (headerEnd + 4), s.2 ++ b.drop (headerEnd + 4))
    | none => (s.1 ++ b, s.2)

/-- The body of the loop, on the buffer that `recv` left. -/
def process (s : Recv) (buff : Block) : Turn :=
  let (head, body) := append (s.head, s.body) buff.view
  if buff.last = 0 then .done head body
  else .again { head := head, body := body, buff := .zero }

/-- A turn of the loop. A failing `recv` does not write the buffer. -/
def turn (s : Recv) : RecvResult → Turn
  | .eof => .done s.head s.body
  | .data c => s.process (s.buff.write c)
  | .error => s.process s.buff

/-- The loop, and the results it did not ask for. -/
def run (s : Recv) : List RecvResult → Option ((Str × Str) × List RecvResult)
  | [] => none
  | n :: ns =>
    match s.turn n with
    | .done head body => some ((head, body), ns)
    | .again s' => s'.run ns

end Recv

/-- `NiceHTTP::recv_http`. -/
def recvHttp (ns : List RecvResult) : Option ((Str × Str) × List RecvResult) := ({} : Recv).run ns

/-- A text cut just after its first empty line, as the loop cuts a block. -/
def cut (s : Str) : Option (Str × Str) :=
  (find (str "\r\n\r\n") s).map fun headerEnd => (s.take (headerEnd + 4), s.drop (headerEnd + 4))

/-! ### A turn -/

@[simp] theorem blank_eq : str "\r\n\r\n" = [13, 10, 13, 10] := by decide

/-- No byte is lost or moved. -/
theorem append_text (s : Str × Str) (b : Str) :
    (Recv.append s b).1 ++ (Recv.append s b).2 = s.1 ++ s.2 ++ b := by
  unfold Recv.append
  split
  · simp
  · rename_i h
    have hs : s.2 = [] := by simpa using h
    split
    · simp [hs]
    · simp [hs]

/-- Appending nothing changes nothing. -/
theorem append_nil (s : Str × Str) : Recv.append s [] = s := by
  unfold Recv.append
  split
  · rw [List.append_nil]
  · rw [find, if_neg (by decide), List.append_nil]

/-- The loop goes on with a zeroed buffer only. -/
theorem Recv.turn_again {s s' : Recv} {n : RecvResult} (h : s.turn n = .again s') : s'.buff = .zero := by
  have hp : ∀ buff, s.process buff = .again s' → s'.buff = .zero := by
    intro buff hb
    unfold process at hb
    simp only at hb
    split at hb
    · cases hb
    · cases hb
      rfl
  cases n with
  | eof => cases h
  | data c => exact hp _ h
  | error => exact hp _ h

theorem Block.bytes_write_zero (c : Chunk) :
    (Block.zero.write c).bytes = c.bytes ++ List.replicate (pktBlockSize - c.bytes.length) 0 := by
  simp [Block.write, Block.zero, List.drop_replicate]

/-- The text of a zeroed buffer that took a chunk is the chunk up to its first
NUL. -/
theorem Block.view_write (c : Chunk) : (Block.zero.write c).view = cstr c.bytes := by
  rw [view, bytes_write_zero, cstr_append_zeros]

/-- The last byte is the chunk's only if the chunk fills the buffer. -/
theorem Block.last_write (c : Chunk) :
    (Block.zero.write c).last = if c.bytes.length < pktBlockSize then 0 else c.bytes.getLastD 0 := by
  rw [last, bytes_write_zero]
  split
  · rename_i h
    obtain ⟨k, hk⟩ : ∃ k, pktBlockSize - c.bytes.length = k + 1 := ⟨pktBlockSize - c.bytes.length - 1, by omega⟩
    rw [hk, List.replicate_succ', ← List.append_assoc, List.getLastD_eq_getLast?, List.getLast?_concat]
    rfl
  · rename_i h
    rw [Nat.sub_eq_zero_of_le (by omega), List.replicate_zero, List.append_nil]

/-- A failing `recv` ends the loop and adds nothing. -/
theorem Recv.turn_error {s : Recv} (hs : s.buff = .zero) : s.turn .error = .done s.head s.body := by
  have hview : Block.zero.view = [] := cstr_append_zeros [] pktBlockSize
  have hlast : Block.zero.last = 0 := by
    rw [Block.last, Block.zero, List.getLastD_eq_getLast?, List.getLast?_replicate]
    rfl
  unfold turn process
  simp only [hs, hview, append_nil]
  rw [if_pos hlast]

/-- A chunk stops the loop if it leaves the last byte of the buffer zero. -/
theorem RecvResult.stops_data (c : Chunk) : (RecvResult.data c).stops = true ↔ (Block.zero.write c).last = 0 := by
  rw [Block.last_write, RecvResult.stops]
  by_cases h : c.bytes.length < pktBlockSize
  · simp [h]
  · simp [h]

/-- **A turn of the loop** appends the text of the result, and stops if the
result stops the loop. -/
theorem Recv.turn_eq {s : Recv} (hs : s.buff = .zero) (n : RecvResult) :
    s.turn n =
      if n.stops then
        .done (append (s.head, s.body) (cstr n.bytes)).1 (append (s.head, s.body) (cstr n.bytes)).2
      else
        .again ⟨(append (s.head, s.body) (cstr n.bytes)).1, (append (s.head, s.body) (cstr n.bytes)).2, .zero⟩ := by
  have hnil : append (s.head, s.body) (cstr []) = (s.head, s.body) := append_nil _
  cases n with
  | eof =>
    rw [RecvResult.bytes, hnil]
    rfl
  | error =>
    rw [turn_error hs, RecvResult.bytes, hnil]
    rfl
  | data c =>
    unfold turn process
    simp only [hs, Block.view_write]
    by_cases h : (RecvResult.data c).stops = true
    · rw [if_pos h, if_pos ((RecvResult.stops_data c).mp h)]
      rfl
    · rw [if_neg h, if_neg fun h0 => h ((RecvResult.stops_data c).mpr h0)]
      rfl

/-- A chunk without NUL stops the loop exactly if it is short. -/
theorem RecvResult.stops_of_notMem {c : Chunk} (hc : 0 ∉ c.bytes) :
    (RecvResult.data c).stops = true ↔ c.bytes.length < pktBlockSize := by
  have hlast : c.bytes.getLastD 0 ≠ 0 := by
    have hne : c.bytes ≠ [] := List.ne_nil_of_length_pos c.pos
    rw [List.getLastD_eq_getLast?, List.getLast?_eq_getLast_of_ne_nil hne, Option.getD_some]
    exact fun h0 => hc (h0 ▸ List.getLast_mem hne)
  rw [stops, Bool.or_eq_true, decide_eq_true_iff, decide_eq_true_iff, or_iff_left hlast]

/-- A turn on a chunk without NUL appends the chunk, and stops if the chunk is
short. -/
theorem Recv.turn_data {s : Recv} (hs : s.buff = .zero) {c : Chunk} (hc : 0 ∉ c.bytes) :
    s.turn (.data c) =
      if c.bytes.length < pktBlockSize then
        .done (append (s.head, s.body) c.bytes).1 (append (s.head, s.body) c.bytes).2
      else
        .again ⟨(append (s.head, s.body) c.bytes).1, (append (s.head, s.body) c.bytes).2, .zero⟩ := by
  rw [turn_eq hs]
  simp only [RecvResult.stops_of_notMem hc, RecvResult.bytes, cstr_of_notMem hc]

/-- A packet shorter than the buffer is all that is read. -/
theorem recvHttp_packet (c : Chunk) (hc : 0 ∉ c.bytes) (hs : c.bytes.length < pktBlockSize)
    (ns : List RecvResult) : recvHttp (.data c :: ns) = some (Recv.append ([], []) c.bytes, ns) := by
  unfold recvHttp
  rw [Recv.run, Recv.turn_data rfl hc, if_pos hs]

/-- A request in one packet. -/
def getPacket : Chunk := ⟨str "GET / HTTP/1.1\r\n\r\n", by decide, by decide⟩

/-! ### A run over chunks without NUL -/

/-- The texts up to the first that is shorter than the buffer. -/
def consumed : List Chunk → List Str
  | [] => []
  | c :: cs => if c.bytes.length < pktBlockSize then [c.bytes] else c.bytes :: consumed cs

/-- The bytes of the chunks. -/
def bytesOf (cs : List Chunk) : Str := (cs.map Chunk.bytes).flatten

/-- **A run appends the chunks up to the first short one.** -/
theorem Recv.run_chunks : ∀ (cs : List Chunk) (s : Recv), s.buff = .zero → (∀ c ∈ cs, 0 ∉ c.bytes) →
    (s.run (cs.map .data ++ [.eof])).map Prod.fst = some ((consumed cs).foldl append (s.head, s.body))
  | [], _, _, _ => rfl
  | c :: cs, s, hs, hc => by
    rw [List.map_cons, List.cons_append, run, turn_data hs (hc c List.mem_cons_self)]
    by_cases h : c.bytes.length < pktBlockSize
    · simp only [if_pos h, Option.map_some, consumed, List.foldl_cons, List.foldl_nil]
    · simp only [if_neg h, consumed, List.foldl_cons]
      exact run_chunks cs _ rfl fun d hd => hc d (List.mem_cons_of_mem _ hd)

/-- A fold of appends loses no byte. -/
theorem foldl_append_text : ∀ (ts : List Str) (s : Str × Str),
    (ts.foldl Recv.append s).1 ++ (ts.foldl Recv.append s).2 = s.1 ++ s.2 ++ ts.flatten
  | [], s => by simp
  | t :: ts, s => by
    rw [List.foldl_cons, foldl_append_text ts, append_text, List.flatten_cons, List.append_assoc]

end NiceHttp
