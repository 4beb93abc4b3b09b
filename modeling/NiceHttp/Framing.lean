/-
# What a segmentation does to the framing

`recv_http` takes a block that is not full for the end of the message. So of
a message that arrives in chunks it reads those up to the first one shorter
than the buffer, and two segmentations of one message give the same head and
body exactly if they agree on the sizes up to there (`received_eq_iff`): the
rest of the sizes does not matter, and a first short chunk at another place
does. A request line that arrives in two packets is cut in the middle
(`segmentation_matters`).

Key definitions: `Complete`, `received`, `toShort`.
-/
import NiceHttp.Recv

namespace NiceHttp

open CString Text

/-- A head ending in the first empty line, and a body of the announced length. -/
def Complete (m : Str) : Prop := ∃ head body, cut m = some (head, body) ∧ body.length = announced head

/-- What `recv_http` returns for chunks followed by the end of the stream. -/
def received (cs : List Chunk) : Option (Str × Str) := (recvHttp (cs.map .data ++ [.eof])).map Prod.fst

/-- Chunk sizes up to the first that is smaller than a block. -/
def toShort : List ℕ → List ℕ
  | [] => []
  | n :: ns => if n < pktBlockSize then [n] else n :: toShort ns

/-- The sizes of the chunks. -/
def sizes (cs : List Chunk) : List ℕ := cs.map fun c => c.bytes.length

theorem received_chunks {cs : List Chunk} (h : 0 ∉ bytesOf cs) :
    received cs = some ((consumed cs).foldl Recv.append ([], [])) := by
  refine Recv.run_chunks cs {} rfl fun c hc h0 => h ?_
  exact List.mem_flatten.mpr ⟨c.bytes, List.mem_map.mpr ⟨c, hc, rfl⟩, h0⟩

theorem length_consumed : ∀ cs : List Chunk, (consumed cs).map List.length = toShort (sizes cs)
  | [] => rfl
  | c :: cs => by
    have ih := length_consumed cs
    unfold sizes at ih ⊢
    rw [consumed, List.map_cons, toShort]
    split
    · rfl
    · rw [List.map_cons, ih]

/-- The total of the sizes up to the first short one tells them apart. -/
theorem toShort_sum_inj : ∀ {ns ks : List ℕ}, (∀ n ∈ ns, 0 < n ∧ n ≤ pktBlockSize) →
    (∀ k ∈ ks, 0 < k ∧ k ≤ pktBlockSize) → (toShort ns).sum = (toShort ks).sum → toShort ns = toShort ks
  | [], [], _, _, _ => rfl
  | [], k :: ks, _, hk, h => by
    have := (hk k List.mem_cons_self).1
    rw [toShort, toShort] at h
    split at h <;> simp at h <;> omega
  | n :: ns, [], hn, _, h => by
    have := (hn n List.mem_cons_self).1
    rw [toShort, toShort] at h
    split at h <;> simp at h <;> omega
  | n :: ns, k :: ks, hn, hk, h => by
    have h1 := (hn n List.mem_cons_self).2
    have h2 := (hk k List.mem_cons_self).2
    have ih := toShort_sum_inj (fun n' hn' => hn n' (List.mem_cons_of_mem _ hn'))
      (fun k' hk' => hk k' (List.mem_cons_of_mem _ hk'))
    rw [toShort, toShort] at h ⊢
    by_cases hns : n < pktBlockSize
    · by_cases hks : k < pktBlockSize
      · rw [if_pos hns, if_pos hks] at h ⊢
        simpa using h
      · -- a short chunk has fewer bytes than a full one
        rw [if_pos hns, if_neg hks] at h
        simp only [List.sum_cons, List.sum_nil] at h
        omega
    · by_cases hks : k < pktBlockSize
      · rw [if_neg hns, if_pos hks] at h
        simp only [List.sum_cons, List.sum_nil] at h
        omega
      · rw [if_neg hns, if_neg hks] at h ⊢
        have hnk : n = k := by omega
        rw [List.sum_cons, List.sum_cons, hnk] at h
        rw [ih (Nat.add_left_cancel h), hnk]

/-- Cuts of one text at the same places are the same. -/
theorem consumed_congr : ∀ {cs ds : List Chunk}, bytesOf cs = bytesOf ds → toShort (sizes cs) = toShort (sizes ds) →
    consumed cs = consumed ds
  | [], [], _, _ => rfl
  | [], d :: ds, _, h => by
    simp only [sizes, List.map_nil, List.map_cons, toShort] at h
    split at h <;> cases h
  | c :: cs, [], _, h => by
    simp only [sizes, List.map_nil, List.map_cons, toShort] at h
    split at h <;> cases h
  | c :: cs, d :: ds, hb, h => by
    have hlen : c.bytes.length = d.bytes.length := by
      simp only [sizes, List.map_cons, toShort] at h
      split at h <;> split at h <;> exact (List.cons.inj h).1
    simp only [bytesOf, List.map_cons, List.flatten_cons] at hb
    obtain ⟨hcd, hrest⟩ := List.append_inj hb hlen
    simp only [sizes, List.map_cons, toShort, hlen] at h
    rw [consumed, consumed, hcd]
    split
    · rfl
    · rename_i hfull
      rw [if_neg hfull, if_neg hfull] at h
      rw [consumed_congr hrest (List.cons.inj h).2]

theorem sizes_bounds (cs : List Chunk) : ∀ n ∈ sizes cs, 0 < n ∧ n ≤ pktBlockSize := by
  intro n hn
  obtain ⟨c, -, rfl⟩ := List.mem_map.mp hn
  exact ⟨c.pos, c.le⟩

/-- **Two segmentations of a message give the same head and body exactly if
they agree on the chunk sizes up to the first short chunk.** -/
theorem received_eq_iff {m : Str} (hm : 0 ∉ m) {cs ds : List Chunk} (hc : bytesOf cs = m)
    (hd : bytesOf ds = m) :
    ∃ r s, received cs = some r ∧ received ds = some s ∧
      (r = s ↔ toShort (sizes cs) = toShort (sizes ds)) := by
  subst hc
  have hrc := received_chunks hm
  have hrd := received_chunks (hd ▸ hm)
  refine ⟨_, _, hrc, hrd, fun h => ?_, fun h => ?_⟩
  · -- the same results have the same number of bytes
    refine toShort_sum_inj (sizes_bounds cs) (sizes_bounds ds) ?_
    have htext := foldl_append_text (consumed cs) ([], [])
    rw [h, foldl_append_text] at htext
    have hlen := congrArg List.length htext
    simp only [List.nil_append, List.length_flatten, length_consumed] at hlen
    exact hlen.symm
  · rw [consumed_congr hd.symm h]

/-- A request in one packet. -/
def onePacket : List Chunk := [getPacket]

/-- The same request in two packets. -/
def twoPackets : List Chunk :=
  [⟨str "G", by decide, by decide⟩, ⟨str "ET / HTTP/1.1\r\n\r\n", by decide, by decide⟩]

theorem received_eq_iff_packets :
    ∃ r s, received onePacket = some r ∧ received twoPackets = some s ∧
      (r = s ↔ toShort (sizes onePacket) = toShort (sizes twoPackets)) :=
  received_eq_iff (m := str "GET / HTTP/1.1\r\n\r\n") (by decide) (by decide) (by decide)

/-- A complete request whose first byte comes alone is cut after that byte. -/
theorem segmentation_matters :
    0 ∉ bytesOf onePacket ∧ Complete (bytesOf onePacket) ∧ bytesOf twoPackets = bytesOf onePacket ∧
      received onePacket = some (str "GET / HTTP/1.1\r\n\r\n", []) ∧
      received twoPackets = some (str "G", []) := by
  have h1 : 0 ∉ bytesOf onePacket := by decide
  have h2 : bytesOf twoPackets = bytesOf onePacket := by decide
  refine ⟨h1, ⟨str "GET / HTTP/1.1\r\n\r\n", [], by decide, by decide⟩, h2, ?_, ?_⟩
  · rw [received_chunks h1]
    decide
  · rw [received_chunks (h2 ▸ h1)]
    decide

end NiceHttp
