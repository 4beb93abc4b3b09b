/-
# When the receive loop stops

`recv_http` decides from the last byte of its buffer whether to ask for more.

Without NULs in the data the loop stops at the first chunk that does not fill
the buffer, so a message that comes in full blocks leaves the call waiting for
a packet that the peer does not send (`not_waits_iff`), and a message can come
so exactly if its length is a multiple of the block size (`never_waits_iff`).

With any data the loop scans a buffer that has no NUL, and then what the
memory holds behind it, exactly if a chunk without NUL fills the buffer
(`scan_in_bounds_iff`).

Key definitions: `Waits`, `asked`, `Block.scan`, `Recv.scans`.
Key theorems: `Recv.run_eq_none_iff_stops`, `Recv.scans_inBounds_iff`.
-/
import NiceHttp.Framing
import NiceHttp.Cut

namespace NiceHttp

open CString Text

/-! ### Waiting -/

/-- The call used up the results and asks `recv` for one more. -/
def Waits (ns : List RecvResult) : Prop := recvHttp ns = none

/-- **The loop is still waiting exactly if no result stopped it.** -/
theorem Recv.run_eq_none_iff_stops (ns : List RecvResult) {s : Recv} (hs : s.buff = .zero) :
    s.run ns = none ↔ ∀ n ∈ ns, ¬ n.stops = true := by
  induction ns generalizing s with
  | nil => exact ⟨fun _ _ h => (List.not_mem_nil h).elim, fun _ => rfl⟩
  | cons n ns ih =>
    rw [run, turn_eq hs, List.forall_mem_cons]
    by_cases hn : n.stops = true
    · rw [if_pos hn]
      exact iff_of_false (Option.some_ne_none _) fun h => h.1 hn
    · rw [if_neg hn]
      exact (ih rfl).trans ⟨fun h => ⟨hn, h⟩, fun h => h.2⟩

/-- Without NULs the loop asks for more exactly after full blocks. -/
theorem waits_iff {cs : List Chunk} (h0 : 0 ∉ bytesOf cs) :
    Waits (cs.map .data) ↔ ∀ c ∈ cs, c.bytes.length = pktBlockSize := by
  rw [Waits, recvHttp, Recv.run_eq_none_iff_stops _ rfl, List.forall_mem_map]
  refine forall₂_congr fun c hc => ?_
  have hle := c.le
  have hnul : 0 ∉ c.bytes := fun hm => h0 (List.mem_flatten.mpr ⟨c.bytes, List.mem_map.mpr ⟨c, hc, rfl⟩, hm⟩)
  rw [RecvResult.stops_of_notMem hnul]
  omega

/-- **When all of a message is received, the call asks for no more exactly if
one of its chunks was shorter than the buffer.** -/
theorem not_waits_iff {m : Str} (hm : 0 ∉ m) {cs : List Chunk} (hc : bytesOf cs = m) :
    ¬ Waits (cs.map .data) ↔ ∃ c ∈ cs, c.bytes.length < pktBlockSize := by
  rw [waits_iff (hc ▸ hm), not_forall]
  constructor
  · rintro ⟨c, h⟩
    obtain ⟨hcs, hne⟩ := Classical.not_imp.mp h
    exact ⟨c, hcs, Nat.lt_of_le_of_ne c.le hne⟩
  · rintro ⟨c, hcs, hlt⟩
    exact ⟨c, fun h => Nat.ne_of_lt hlt (h hcs)⟩

theorem not_waits_iff_packet :
    ¬ Waits ([getPacket].map .data) ↔ ∃ c ∈ [getPacket], c.bytes.length < pktBlockSize :=
  not_waits_iff (m := getPacket.bytes) (by decide) (by decide)

/-- A request without body that fills a block. -/
def fullGet : Chunk := .padded (str "GET /") (str " HTTP/1.1\r\n\r\n") (by decide)

/-- A complete request that fills the block in one packet leaves the call waiting. -/
theorem full_request_waits :
    0 ∉ fullGet.bytes ∧ Complete fullGet.bytes ∧ bytesOf [fullGet] = fullGet.bytes ∧
      Waits ([fullGet].map .data) := by
  have hbytes : bytesOf [fullGet] = fullGet.bytes := by simp [bytesOf]
  have h0 : 0 ∉ fullGet.bytes := Chunk.zero_notMem_padded _ (by decide) (by decide)
  have hlen : fullGet.bytes.length = 4096 := Chunk.length_padded _
  have h : (str "GET /").length + (str " HTTP/1.1\r\n\r\n").length ≤ pktBlockSize := by decide
  have hfind : ∀ pat, find (ch '\r' :: pat) fullGet.bytes =
      (find (ch '\r' :: pat) (str " HTTP/1.1\r\n\r\n")).map (· + 4083) := fun pat => by
    have hp := find_padded h (x := ch '\r') (by decide) (by decide) pat []
    rw [List.append_nil, List.append_nil] at hp
    exact hp
  refine ⟨h0, ⟨fullGet.bytes, [], ?_, ?_⟩, hbytes, (waits_iff (hbytes ▸ h0)).mpr ?_⟩
  · have hblank : find (str "\r\n\r\n") fullGet.bytes = some 4092 := (hfind (str "\n\r\n")).trans (by decide)
    rw [cut, hblank, Option.map_some, List.take_of_length_le (by omega), List.drop_eq_nil_of_le (by omega)]
  · have hline : find (str "\r\n") fullGet.bytes = some 4092 := (hfind (str "\n")).trans (by decide)
    obtain ⟨a, ha, halen, -⟩ := Chunk.padded_eq h
    have hdrop : fullGet.bytes.drop (4092 + 2) = str "\r\n" := by
      have hend : 4092 + 2 = a.length + 11 := by rw [halen]; rfl
      rw [fullGet, ha, hend, List.drop_length_add_append]
      rfl
    rw [announced, hline]
    simp only [hdrop]
    decide
  · exact fun c hc => (List.mem_singleton.mp hc) ▸ hlen

/-- Full chunks for a text that is a multiple of the block long. -/
theorem exists_full_chunks : ∀ (k : ℕ) {m : Str}, m.length = k * pktBlockSize →
    ∃ cs, bytesOf cs = m ∧ ∀ c ∈ cs, c.bytes.length = pktBlockSize
  | 0, m, h => by
    rw [Nat.zero_mul, List.length_eq_zero_iff] at h
    exact ⟨[], h.symm, fun c hc => (List.not_mem_nil hc).elim⟩
  | k + 1, m, h => by
    rw [Nat.succ_mul] at h
    have hlen : (m.take pktBlockSize).length = pktBlockSize := by
      rw [List.length_take]
      omega
    obtain ⟨cs, hcs, hfull⟩ := exists_full_chunks k (m := m.drop pktBlockSize) (by rw [List.length_drop]; omega)
    have hpos : 0 < (m.take pktBlockSize).length := hlen.symm ▸ (by decide : 0 < pktBlockSize)
    refine ⟨⟨m.take pktBlockSize, hpos, hlen.le⟩ :: cs, ?_, ?_⟩
    · rw [bytesOf, List.map_cons, List.flatten_cons]
      exact (congrArg _ hcs).trans (List.take_append_drop _ m)
    · exact List.forall_mem_cons.mpr ⟨hlen, hfull⟩

theorem dvd_length_bytesOf : ∀ {cs : List Chunk}, (∀ c ∈ cs, c.bytes.length = pktBlockSize) →
    pktBlockSize ∣ (bytesOf cs).length
  | [], _ => Nat.dvd_zero _
  | c :: cs, h => by
    obtain ⟨hc, hcs⟩ := List.forall_mem_cons.mp h
    rw [bytesOf, List.map_cons, List.flatten_cons, List.length_append, hc]
    exact Nat.dvd_add (dvd_refl _) (dvd_length_bytesOf hcs)

/-- **A message is received without waiting for more, however it is cut, exactly
if its length is no multiple of the block size.** -/
theorem never_waits_iff {m : Str} (hm : 0 ∉ m) :
    (∀ cs, bytesOf cs = m → ¬ Waits (cs.map .data)) ↔ ¬ pktBlockSize ∣ m.length := by
  constructor
  · rintro h ⟨k, hk⟩
    obtain ⟨cs, hcs, hfull⟩ := exists_full_chunks k (hk.trans (Nat.mul_comm _ _))
    exact h cs hcs ((waits_iff (hcs ▸ hm)).mpr hfull)
  · intro h cs hcs hw
    exact h (hcs ▸ dvd_length_bytesOf ((waits_iff (hcs ▸ hm)).mp hw))

/-! ### Scanning the buffer -/

/-- The results up to the first that stops the loop. -/
def asked : List RecvResult → List RecvResult
  | [] => []
  | n :: ns => if n.stops then [n] else n :: asked ns

/-- What `std::string_view b(buff)` reads when the memory behind the buffer
holds `beyond`. -/
def Block.scan (b : Block) (beyond : Str) : Str := cstr (b.bytes ++ beyond)

/-- The buffer that the body of the loop finds; on the end of the stream the
body is not run. -/
def Recv.filled (s : Recv) : RecvResult → Option Block
  | .data c => some (s.buff.write c)
  | .eof => none
  | .error => some s.buff

/-- The buffers that a run scans, each with the result that it follows. Which
these are does not depend on what the scans read. -/
def Recv.scans (s : Recv) : List RecvResult → List (RecvResult × Block)
  | [] => []
  | n :: ns =>
    ((s.filled n).map fun b => (n, b)).toList ++
      match s.turn n with
      | .again s' => s'.scans ns
      | .done _ _ => []

/-- With a NUL in the buffer the scan reads the buffer's text, without one it
goes on behind. -/
theorem Block.scan_of_mem {b : Block} (h : 0 ∈ b.bytes) (beyond : Str) : b.scan beyond = b.view := by
  obtain ⟨s, t, hst⟩ := List.append_of_mem h
  rw [scan, view, hst, List.append_assoc, List.cons_append, cstr_cut, cstr_cut]

theorem Block.scan_of_notMem {b : Block} (h : 0 ∉ b.bytes) (beyond : Str) :
    b.scan beyond = b.bytes ++ cstr beyond := cstr_append h beyond

/-- A zeroed buffer that took a chunk has a NUL, unless the chunk fills it with
other bytes. -/
theorem Block.zero_mem_write (c : Chunk) :
    0 ∈ (Block.zero.write c).bytes ↔ c.bytes.length < pktBlockSize ∨ 0 ∈ c.bytes := by
  have hle := c.le
  rw [bytes_write_zero, List.mem_append, List.mem_replicate, or_comm]
  refine or_congr_left ⟨fun h => by omega, fun h => ⟨by omega, rfl⟩⟩

/-- The loop goes on exactly after a result that does not stop it. -/
theorem Recv.turn_stops {s : Recv} (hs : s.buff = .zero) (n : RecvResult) :
    if n.stops then ∃ head body, s.turn n = .done head body
    else ∃ s', s.turn n = .again s' ∧ s'.buff = .zero := by
  have hturn := turn_eq hs n
  by_cases h : n.stops = true
  · rw [if_pos h] at hturn ⊢
    exact ⟨_, _, hturn⟩
  · rw [if_neg h] at hturn ⊢
    exact ⟨_, hturn, rfl⟩

/-- A scan that stays in the buffer, and reads what was received. -/
def InBounds (e : RecvResult × Block) : Prop :=
  0 ∈ e.2.bytes ∧ ∀ beyond, e.2.scan beyond = cstr e.1.bytes

theorem inBounds_iff {n : RecvResult} {b : Block} (h : b.view = cstr n.bytes) : InBounds (n, b) ↔ 0 ∈ b.bytes :=
  ⟨fun hb => hb.1, fun h0 => ⟨h0, fun beyond => (Block.scan_of_mem h0 beyond).trans h⟩⟩

/-- The scan of one turn is in bounds unless a chunk without NUL fills the buffer. -/
theorem Recv.filled_inBounds_iff {s : Recv} (hs : s.buff = .zero) (n : RecvResult) :
    (∀ b, s.filled n = some b → InBounds (n, b)) ↔
      ∀ c, n = .data c → c.bytes.length < pktBlockSize ∨ 0 ∈ c.bytes := by
  cases n with
  | eof => exact ⟨fun _ => nofun, fun _ => nofun⟩
  | error =>
    refine ⟨fun _ => nofun, fun _ b hb => ?_⟩
    obtain rfl : s.buff = b := Option.some.inj hb
    have hview : Block.zero.view = cstr RecvResult.error.bytes := cstr_append_zeros [] pktBlockSize
    rw [hs]
    exact (inBounds_iff hview).mpr (List.mem_replicate.mpr ⟨by decide, rfl⟩)
  | data c =>
    have hb := (inBounds_iff (n := .data c) (Block.view_write c)).trans (Block.zero_mem_write c)
    constructor
    · intro h c' hc'
      obtain rfl : c = c' := RecvResult.data.inj hc'
      exact hb.mp (hs ▸ h (s.buff.write c) rfl)
    · intro h b hfill
      obtain rfl : s.buff.write c = b := Option.some.inj hfill
      rw [hs]
      exact hb.mpr (h c rfl)

theorem forall_mem_chunksOf_cons {P : Chunk → Prop} (n : RecvResult) (ns : List RecvResult) :
    (∀ c ∈ chunksOf (n :: ns), P c) ↔ (∀ c, n = .data c → P c) ∧ ∀ c ∈ chunksOf ns, P c := by
  cases n with
  | eof => exact ⟨fun h => ⟨nofun, h⟩, fun h => h.2⟩
  | error => exact ⟨fun h => ⟨nofun, h⟩, fun h => h.2⟩
  | data c =>
    refine List.forall_mem_cons.trans (and_congr_left fun _ => ⟨fun h c' e => ?_, fun h => h c rfl⟩)
    cases e
    exact h

theorem Recv.forall_mem_scans_cons {s : Recv} {P : RecvResult × Block → Prop} (n : RecvResult)
    (ns : List RecvResult) :
    (∀ e ∈ s.scans (n :: ns), P e) ↔ (∀ b, s.filled n = some b → P (n, b)) ∧
      ∀ s', s.turn n = .again s' → ∀ e ∈ s'.scans ns, P e := by
  rw [scans, List.forall_mem_append]
  refine and_congr ?_ ?_
  · cases s.filled n with
    | none => simp
    | some b => simp
  · cases s.turn n with
    | done head body => simp
    | again s' => simp

/-- **The scans of a run stay in bounds exactly if no chunk that the run asked
for fills the buffer without a NUL.** -/
theorem Recv.scans_inBounds_iff : ∀ (ns : List RecvResult) {s : Recv}, s.buff = .zero →
    ((∀ e ∈ s.scans ns, InBounds e) ↔
      ∀ c ∈ chunksOf (asked ns), c.bytes.length < pktBlockSize ∨ 0 ∈ c.bytes)
  | [], _, _ => ⟨fun _ _ h => (List.not_mem_nil h).elim, fun _ _ h => (List.not_mem_nil h).elim⟩
  | n :: ns, s, hs => by
    rw [forall_mem_scans_cons, filled_inBounds_iff hs, asked]
    have hturn := turn_stops hs n
    by_cases hn : n.stops = true
    · rw [if_pos hn] at hturn ⊢
      obtain ⟨head, body, hdone⟩ := hturn
      rw [forall_mem_chunksOf_cons, hdone]
      exact and_congr_right fun _ => ⟨fun _ _ h => (List.not_mem_nil h).elim, fun _ => nofun⟩
    · rw [if_neg hn] at hturn ⊢
      obtain ⟨s', hagain, hs'⟩ := hturn
      rw [forall_mem_chunksOf_cons, hagain, ← scans_inBounds_iff ns hs']
      refine and_congr_right fun _ => ⟨fun h => h s' rfl, fun h t ht => ?_⟩
      cases ht
      exact h

/-- **`recv_http` scans inside its buffer, and appends received bytes only,
exactly if no chunk that it asked for fills the buffer without a NUL.** -/
theorem scan_in_bounds_iff (ns : List RecvResult) :
    (∀ e ∈ ({} : Recv).scans ns, 0 ∈ e.2.bytes ∧ ∀ beyond, e.2.scan beyond = cstr e.1.bytes) ↔
      ∀ c ∈ chunksOf (asked ns), c.bytes.length < pktBlockSize ∨ 0 ∈ c.bytes :=
  Recv.scans_inBounds_iff ns rfl

/-- A full block of letters, and a secret behind the buffer that goes into the head. -/
theorem full_block_scanned_past_end :
    (RecvResult.data fullGet, Block.zero.write fullGet) ∈ ({} : Recv).scans [.data fullGet] ∧
      0 ∉ (Block.zero.write fullGet).bytes ∧
      (Block.zero.write fullGet).scan (str "secret") = fullGet.bytes ++ str "secret" := by
  have h0 : 0 ∉ fullGet.bytes := Chunk.zero_notMem_padded _ (by decide) (by decide)
  have hlen : fullGet.bytes.length = pktBlockSize := Chunk.length_padded _
  have hbytes : (Block.zero.write fullGet).bytes = fullGet.bytes := by
    rw [Block.bytes_write_zero, hlen, Nat.sub_self, List.replicate_zero, List.append_nil]
  refine ⟨?_, hbytes ▸ h0, ?_⟩
  · rw [Recv.scans, Recv.filled, Option.map_some, Option.toList_some]
    exact List.mem_append_left _ (List.mem_singleton.mpr rfl)
  · have hsecret : cstr (str "secret") = str "secret" := by decide
    rw [Block.scan_of_notMem (hbytes ▸ h0), hbytes, hsecret]

end NiceHttp
