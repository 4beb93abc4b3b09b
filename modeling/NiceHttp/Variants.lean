/-
# Other texts of a message

A message has more than one text. Header lines of different names may come in
any order, the constructors read the same from them (`header_order`).
`toString(false)` ends its lines with LF only, for a reader at a terminal: it
is the text with CRLF without its CRs, and neither constructor finds a line in
it (`lf_unread`).

Key definitions: `Field.name`, `NoCr`.
Key theorems: `put_comm`, `foldl_put_perm`, `header_order`, `format_lf`.
-/
import NiceHttp.Sent
import NiceHttp.RoundTrip

namespace NiceHttp

open CString Text

/-! ### Header lines in another order -/

/-- The name that a field is about. -/
def Field.name : Field → Option Str
  | .skip => none
  | .length _ => some (str "content-length")
  | .json => some (str "content-type")
  | .entry k _ => some k

theorem name_field (header : Str) : (field header).name = fieldName header := by
  unfold field
  cases h : fieldName header with
  | none => rfl
  | some key =>
    simp only
    split
    · rename_i hk
      rw [hk]
      rfl
    · split
      · rename_i hk
        rw [hk.1]
        rfl
      · rfl

/-- The fields are about different names, if about any. -/
def Apart (f g : Field) : Prop := f.name = none ∨ f.name ≠ g.name

theorem Apart.symm {f g : Field} (h : Apart f g) : Apart g f := by
  rcases h with h | h
  · cases hg : g.name with
    | none => exact Or.inl hg
    | some k => exact Or.inr (by rw [h, hg]; nofun)
  · exact Or.inr h.symm

/-- **Fields of different names may change places.** -/
theorem put_comm {f g : Field} (h : Apart f g) (m : Message) : (m.put f).put g = (m.put g).put f := by
  cases f with
  | skip => rfl
  | length v =>
    cases g with
    | length w => exact absurd rfl (h.resolve_left nofun)
    | _ => rfl
  | json =>
    cases g with
    | _ => rfl
  | entry k v =>
    cases g with
    | entry k' v' =>
      have hk : k ≠ k' := fun hk => h.resolve_left nofun (congrArg some hk)
      have hswap : m.headers.insertAll [(k, v), (k', v')] = m.headers.insertAll [(k', v'), (k, v)] :=
        SortedSet.insertAll_perm (List.Perm.swap _ _ _) (by simpa using hk) m.headers
      exact congrArg (fun headers => { m with headers := headers }) hswap
    | _ => rfl

/-- **Fields of different names may be put in any order.** -/
theorem foldl_put_perm {fs gs : List Field} (h : fs.Perm gs) (hapart : fs.Pairwise Apart) (m : Message) :
    fs.foldl Message.put m = gs.foldl Message.put m := by
  have : Std.Symm Apart := ⟨fun _ _ => Apart.symm⟩
  refine h.foldl_eq' (fun f hf g hg m => ?_) m
  by_cases he : f = g
  · rw [he]
  · exact put_comm (hapart.forall hf hg he) m

/-- A CRLF line has the name of its text. -/
theorem fieldName_cr (l : Str) : fieldName (l ++ [13]) = fieldName l := by
  cases h : find (str ": ") l with
  | some i =>
    obtain ⟨hfree, hl⟩ := find_pair_some h
    have hcr : l ++ [13] = l.take i ++ ch ':' :: ch ' ' :: (l.drop (i + 2) ++ [13]) := by
      conv_lhs => rw [hl]
      rw [List.append_assoc]
      rfl
    rw [hcr, (fieldName_append hfree _).1, fieldName, h]
    rfl
  | none =>
    have hfree : Free 58 32 l := free_of_no_start (find_none h)
    have hnone : find [58, 32] (l ++ [(13 : UInt8)]) = none := by
      rw [find_append l [13] (not_prefix_of_free hfree fun u hu => by
        obtain rfl : 13 = u := by simpa using hu
        decide)]
      rfl
    rw [fieldName, fieldName, h, colon_eq, hnone]
    rfl

/-- The header lines have different names, if any. -/
def ApartLines (a b : Str) : Prop := fieldName a = none ∨ fieldName a ≠ fieldName b

/-- **Lines of different names may be read in any order.** -/
theorem read_block_perm {ls ks : List Str} (h : ls.Perm ks) (hlf : ∀ l ∈ ls, ch '\n' ∉ l)
    (hapart : ls.Pairwise ApartLines) (m : Message) : m.read (block 13 10 ls) = m.read (block 13 10 ks) := by
  rw [read_block m hlf, read_block m fun l hl => hlf l (h.mem_iff.mpr hl)]
  refine foldl_put_perm (h.map _) (List.pairwise_map.mpr (hapart.imp fun hab => ?_)) m
  unfold Apart
  rw [name_field, name_field, fieldName_cr, fieldName_cr]
  exact hab

/-- **The order of header lines does not matter.** From two heads with one first
line, and with the same header lines of different names in another order, both
constructors read the same. -/
theorem header_order {start : Str} (hs : Free 13 10 start) {ls ks : List Str} (h : ls.Perm ks)
    (hlf : ∀ l ∈ ls, ch '\n' ∉ l) (hapart : ls.Pairwise ApartLines) (body : Str) :
    Request.ofHeadBody (block 13 10 (start :: ls) ++ [13, 10]) body =
        Request.ofHeadBody (block 13 10 (start :: ks) ++ [13, 10]) body ∧
      ∀ code₀, Response.ofHeadBody code₀ (block 13 10 (start :: ls) ++ [13, 10]) body =
        Response.ofHeadBody code₀ (block 13 10 (start :: ks) ++ [13, 10]) body := by
  obtain ⟨hfind, htake, hdrop⟩ := head_parts hs ls
  obtain ⟨hfind', htake', hdrop'⟩ := head_parts hs ks
  have hread : ∀ proto : Str, ({ proto := proto } : Message).read (block 13 10 ls ++ [13, 10]) =
      ({ proto := proto } : Message).read (block 13 10 ks ++ [13, 10]) := by
    intro proto
    have hend : ∀ xs : List Str, block 13 10 xs ++ [13, 10] = block 13 10 (xs ++ [[]]) := fun xs => by simp [block]
    rw [hend, hend]
    refine read_block_perm (h.append_right _) (fun l hl => ?_) ?_ _
    · rcases List.mem_append.mp hl with hl | hl
      · exact hlf l hl
      · rw [List.mem_singleton.mp hl]
        exact List.not_mem_nil
    · refine List.pairwise_append.mpr ⟨hapart, List.pairwise_singleton _ _, fun a _ b hb => ?_⟩
      rw [List.mem_singleton.mp hb]
      cases ha : fieldName a with
      | none => exact Or.inl ha
      | some k =>
        right
        rw [ha]
        exact Option.some_ne_none k
  constructor
  · rw [Request.ofHeadBody_some hfind, Request.ofHeadBody_some hfind', Request.built, Request.built, htake, htake',
      hdrop, hdrop', Message.parsed, Message.parsed, hread]
  · intro code₀
    rw [Response.ofHeadBody_some code₀ hfind, Response.ofHeadBody_some code₀ hfind', htake, htake']
    simp only [Response.built, htake, htake', hdrop, hdrop', Message.parsed, hread]

theorem header_order_two :
    Request.ofHeadBody (block 13 10 [str "GET / HTTP/1.1", str "Host: a", str "X-Id: 7"] ++ [13, 10]) [] =
        Request.ofHeadBody (block 13 10 [str "GET / HTTP/1.1", str "X-Id: 7", str "Host: a"] ++ [13, 10]) [] ∧
      ∀ code₀, Response.ofHeadBody code₀
          (block 13 10 [str "GET / HTTP/1.1", str "Host: a", str "X-Id: 7"] ++ [13, 10]) [] =
        Response.ofHeadBody code₀
          (block 13 10 [str "GET / HTTP/1.1", str "X-Id: 7", str "Host: a"] ++ [13, 10]) [] :=
  header_order (free_of_notMem_left (by decide)) (List.Perm.swap _ _ _) (by decide)
    (List.pairwise_pair.mpr (Or.inr (by decide))) []

/-! ### Lines that end with LF -/

/-- A text without CR. -/
abbrev NoCr (s : Str) : Prop := ch '\r' ∉ s

/-- No text of the message has a CR. -/
structure Message.NoCr (m : Message) : Prop where
  headers : ∀ e ∈ m.headers, NiceHttp.NoCr e.1 ∧ NiceHttp.NoCr e.2
  body : NiceHttp.NoCr m.body

/-- **The text with LF** is the text with CRLF without its CRs. -/
theorem format_lf {m : Message} (h : m.NoCr) {start : Str} (hs : NoCr start) :
    m.format start (str "\n") = (m.format start (str "\r\n")).filter (· ≠ ch '\r') := by
  have hkeep : ∀ {s : Str}, NoCr s → s.filter (· ≠ ch '\r') = s := fun hs =>
    List.filter_eq_self.mpr fun c hc => decide_eq_true fun he => hs (he ▸ hc)
  have hend : (str "\r\n").filter (· ≠ ch '\r') = str "\n" := by decide
  have hcolon : (str ": ").filter (· ≠ ch '\r') = str ": " := by decide
  have hlength : (str "Content-Length: ").filter (· ≠ ch '\r') = str "Content-Length: " := by decide
  have htype : (str "Content-Type: application/json").filter (· ≠ ch '\r') = str "Content-Type: application/json" := by
    decide
  have hnum : (decimal m.contentLength.toNat).filter (· ≠ ch '\r') = decimal m.contentLength.toNat :=
    hkeep (notMem_decimal (by decide))
  have hlines : (m.headers.toList.flatMap fun e => e.1 ++ str ": " ++ e.2 ++ str "\r\n").filter (· ≠ ch '\r') =
      m.headers.toList.flatMap fun e => e.1 ++ str ": " ++ e.2 ++ str "\n" := by
    rw [List.filter_flatMap]
    refine List.flatMap_congr fun e he => ?_
    obtain ⟨h1, h2⟩ := h.headers e he
    rw [List.filter_append, List.filter_append, List.filter_append, hend, hcolon, hkeep h1, hkeep h2]
  unfold Message.format
  rw [List.filter_append, List.filter_append, List.filter_append, hkeep hs, hend, hlines]
  congr 1
  split
  · rw [List.filter_append, List.filter_append, List.filter_append, List.filter_append, List.filter_append, hlength,
      hnum, hend, hkeep h.body]
    split
    · rw [List.filter_append, htype, hend]
    · rfl
  · exact hend.symm

/-- A text without CR has no line end for a constructor. -/
theorem find_crlf_noCr {s : Str} (h : NoCr s) : find (str "\r\n") s = none := by
  cases hf : find (str "\r\n") s with
  | none => rfl
  | some i =>
    have hpre := find_some hf
    exact absurd (List.mem_of_mem_drop (hpre.subset (by decide : ch '\r' ∈ str "\r\n"))) h

/-- A text without the CRs has none, and no part of it has. -/
theorem noCr_of_filter {s t head : Str} (h : s = t.filter (· ≠ ch '\r')) (hhead : head <:+: s) : NoCr head := by
  intro hc
  have hmem := hhead.subset hc
  rw [h] at hmem
  exact of_decide_eq_true (List.mem_filter.mp hmem).2 rfl

/-- **The text with LF cannot be read.** `toString(false)` of a request or a
response without CR is the text with CRLF without its CRs; and whatever part of
it a constructor gets for the head, it finds no line and reads nothing. -/
theorem lf_unread :
    (∀ q : Request, q.NoCr → NoCr q.method → NoCr q.uri → NoCr q.proto →
      q.toString false = q.toString.filter (· ≠ ch '\r') ∧ ∀ head body, head <:+: q.toString false →
        Request.ofHeadBody head body = .ok ({}, [str "Malformed request"])) ∧
    ∀ r : Response, r.NoCr → NoCr r.proto → NoCr r.message →
      r.toString false = r.toString.filter (· ≠ ch '\r') ∧ ∀ code₀ head body, head <:+: r.toString false →
        Response.ofHeadBody code₀ head body = .ok ({ code := code₀ }, [str "Malformed request"]) := by
  have hspace : NoCr (str " ") := by decide
  have hjoin : ∀ {s t : Str}, NoCr s → NoCr t → NoCr (s ++ t) := fun hs ht hc =>
    (List.mem_append.mp hc).elim hs ht
  constructor
  · intro q hq hm hu hp
    have htext := format_lf hq (hjoin (hjoin (hjoin (hjoin hm hspace) hu) hspace) hp)
    refine ⟨htext, fun head body hhead => ?_⟩
    exact Request.ofHeadBody_none (find_crlf_noCr (noCr_of_filter htext hhead)) body
  · intro r hr hp hm
    have hcode : NoCr (printInt r.code.toInt) := notMem_printInt (by decide)
    have htext := format_lf hr (hjoin (hjoin (hjoin (hjoin hp hspace) hcode) hspace) hm)
    refine ⟨htext, fun code₀ head body hhead => ?_⟩
    unfold Response.ofHeadBody
    rw [find_crlf_noCr (noCr_of_filter htext hhead)]

theorem lf_unread_odd :
    Request.ofHeadBody (tokenRequest.toString false) [] = .ok ({}, [str "Malformed request"]) ∧
      Response.ofHeadBody 0 (oddResponse.toString false) [] = .ok ({ code := 0 }, [str "Malformed request"]) :=
  ⟨(lf_unread.1 tokenRequest ⟨by decide, by decide⟩ (by decide) (by decide) (by decide)).2 _ _ List.infix_rfl,
    (lf_unread.2 oddResponse ⟨by decide, by decide⟩ (by decide) (by decide)).2 _ _ _ List.infix_rfl⟩

end NiceHttp
