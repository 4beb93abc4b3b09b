/-
# Searching and splitting strings

Strings over any alphabet are lists. `find` is the first occurrence of a
pattern, `splitView` the split at a separator that gives no word on the empty
string, `block` the text of lines ended by a two-letter line end. The facts
are about a line end `[x, y]` of two different letters: a string without the
pair inside (`Free`) is found again in front of it (`find_pair_append`), and
the first empty line of a block is its end (`find_blank`).

Key definitions: `find`, `Free`, `splitView`, `block`.
Key theorems: `find_pair_append`, `find_pair_some`, `find_blank`,
`splitOn_block`.
-/
import Mathlib.Data.List.Chain
import Mathlib.Data.List.Infix
import Mathlib.Tactic

namespace Text

variable {α : Type*}

/-- What a test finds of all letters of a string. -/
theorem forall_mem_of_all {p : α → Prop} [DecidablePred p] {s : List α} (h : (s.all fun a => p a) = true) :
    ∀ a ∈ s, p a := fun a ha => of_decide_eq_true (List.all_eq_true.mp h a ha)

/-! ### A line end of two letters -/

/-- The pair `x y` does not occur in the string. -/
def Free (x y : α) (s : List α) : Prop := s.IsChain fun u v => ¬ (u = x ∧ v = y)

theorem Free.nil (x y : α) : Free x y [] := List.isChain_nil

theorem Free.piece {x y : α} {s t : List α} (h : Free x y s) (ht : t <:+: s) : Free x y t :=
  List.IsChain.infix h ht

theorem free_of_notMem_left {x y : α} : ∀ {s : List α}, x ∉ s → Free x y s
  | [], _ => Free.nil x y
  | [_], _ => List.isChain_singleton _
  | u :: v :: s, h => by
    have hu : u ≠ x := fun e => h (e ▸ List.mem_cons_self)
    exact List.isChain_cons_cons.mpr ⟨fun e => hu e.1,
      free_of_notMem_left fun hm => h (List.mem_cons_of_mem _ hm)⟩

theorem free_of_notMem_right {x y : α} : ∀ {s : List α}, y ∉ s → Free x y s
  | [], _ => Free.nil x y
  | [_], _ => List.isChain_singleton _
  | u :: v :: s, h => by
    have hv : v ≠ y := fun e => h (e ▸ List.mem_cons_of_mem _ List.mem_cons_self)
    exact List.isChain_cons_cons.mpr ⟨fun e => hv e.2,
      free_of_notMem_right fun hm => h (List.mem_cons_of_mem _ hm)⟩

/-- A letter that is in neither place of the pair may join two strings. -/
theorem free_append_cons {x y c : α} {s t : List α} (hx : c ≠ x) (hy : c ≠ y) :
    Free x y (s ++ c :: t) ↔ Free x y s ∧ Free x y t := by
  unfold Free
  rw [List.isChain_append, List.isChain_cons]
  constructor
  · rintro ⟨h1, ⟨-, h2⟩, -⟩
    exact ⟨h1, h2⟩
  · rintro ⟨h1, h2⟩
    refine ⟨h1, ⟨fun v _ e => hx e.1, h2⟩, fun u _ v hv e => ?_⟩
    simp only [List.head?_cons, Option.mem_some_iff] at hv
    exact hy (hv.trans e.2)

theorem pair_start {x y : α} {s : List α} : [x, y] <+: s ↔ ∃ t, s = x :: y :: t := by
  constructor
  · rintro ⟨t, rfl⟩
    exact ⟨t, rfl⟩
  · rintro ⟨t, rfl⟩
    exact ⟨t, rfl⟩

/-- The pair starts nowhere in a free string, also not at its last letter if
what follows does not complete it. -/
theorem not_prefix_of_free {x y : α} : ∀ {s t : List α}, Free x y s → (∀ u, t.head? = some u → u ≠ y) →
    ∀ j < s.length, ¬ [x, y] <+: (s ++ t).drop j
  | [], _, _, _, _, hj => by simp at hj
  | [u], t, _, ht, j, hj => by
    obtain rfl : j = 0 := by simpa using hj
    rw [pair_start]
    rintro ⟨r, hr⟩
    have hrt : t = y :: r := by
      have := congrArg List.tail hr
      simpa using this
    exact ht y (by rw [hrt]; rfl) rfl
  | u :: v :: s, t, h, ht, j, hj => by
    obtain ⟨huv, hs⟩ := List.isChain_cons_cons.mp h
    cases j with
    | zero =>
      rw [pair_start]
      rintro ⟨r, hr⟩
      simp only [List.cons_append, List.drop_zero, List.cons.injEq] at hr
      exact huv ⟨hr.1, hr.2.1⟩
    | succ j => simpa using not_prefix_of_free hs ht j (by simpa using hj)

/-! ### Blocks of lines -/

/-- The lines, each with the line end `x y`. -/
def block (x y : α) (ls : List (List α)) : List α := ls.flatMap (· ++ [x, y])

@[simp] theorem block_nil (x y : α) : block x y [] = [] := rfl

@[simp] theorem block_cons (x y : α) (l : List α) (ls : List (List α)) :
    block x y (l :: ls) = l ++ x :: y :: block x y ls := by
  simp [block]

/-- A line that is not empty and has no `y` does not look like a line end. -/
theorem not_pair_start {x y : α} (hxy : x ≠ y) {l : List α} (h0 : l ≠ []) (hy : y ∉ l) (s : List α) :
    ¬ [x, y] <+: l ++ x :: s := by
  rw [pair_start]
  rintro ⟨t, ht⟩
  match l, h0, hy with
  | [u], _, _ =>
    simp only [List.cons_append, List.nil_append, List.cons.injEq] at ht
    exact hxy ht.2.1
  | u :: v :: l, _, hy =>
    simp only [List.cons_append, List.cons.injEq] at ht
    exact hy (by simp [ht.2.1])

theorem free_of_no_start {x y : α} : ∀ {s : List α}, (∀ j, ¬ [x, y] <+: s.drop j) → Free x y s
  | [], _ => Free.nil x y
  | [_], _ => List.isChain_singleton _
  | u :: v :: s, h => by
    refine List.isChain_cons_cons.mpr ⟨fun e => ?_, free_of_no_start fun j => by simpa using h (j + 1)⟩
    exact h 0 (pair_start.mpr ⟨s, by rw [e.1, e.2]; rfl⟩)

theorem free_of_no_occurrence {x y : α} {s : List α} (h : ¬ [x, y] <:+: s) : Free x y s :=
  free_of_no_start fun j hj => h (hj.isInfix.trans (List.drop_suffix j s).isInfix)

section Find

variable [DecidableEq α]

/-! ### First occurrences -/

/-- The index of the first occurrence of `pat`. -/
def find (pat : List α) : List α → Option ℕ
  | [] => if pat = [] then some 0 else none
  | x :: s => if pat <+: x :: s then some 0 else (find pat s).map (· + 1)

theorem find_of_start {pat s : List α} (h : pat <+: s) : find pat s = some 0 := by
  cases s with
  | nil => simp [find, List.prefix_nil.mp h]
  | cons x s => rw [find, if_pos h]

/-- A part of the text in which no occurrence starts is skipped. -/
theorem find_append {pat : List α} : ∀ (a s : List α),
    (∀ j < a.length, ¬ pat <+: (a ++ s).drop j) → find pat (a ++ s) = (find pat s).map (· + a.length)
  | [], s, _ => by simp
  | x :: a, s, h => by
    have h0 : ¬ pat <+: x :: (a ++ s) := by simpa using h 0 (by simp)
    have hs : ∀ j < a.length, ¬ pat <+: (a ++ s).drop j := fun j hj => by
      simpa using h (j + 1) (by simpa using hj)
    rw [List.cons_append, find, if_neg h0, find_append a s hs, Option.map_map, List.length_cons]
    rfl

/-- A part of the text without the first letter of the pattern is skipped. -/
theorem find_skip {x : α} {a : List α} (h : x ∉ a) (pat s : List α) :
    find (x :: pat) (a ++ s) = (find (x :: pat) s).map (· + a.length) := by
  refine find_append a s fun j hj hp => h ?_
  rw [List.drop_append_of_le_length hj.le, List.drop_eq_getElem_cons hj, List.cons_append,
    List.cons_prefix_cons] at hp
  exact hp.1 ▸ List.getElem_mem hj

theorem find_some {pat : List α} : ∀ {s : List α} {i : ℕ}, find pat s = some i → pat <+: s.drop i
  | [], i, h => by
    simp only [find] at h
    split at h
    · rename_i hp
      simp [hp]
    · cases h
  | x :: s, i, h => by
    rw [find] at h
    split at h
    · rename_i hp
      obtain rfl : 0 = i := Option.some.inj h
      exact hp
    · obtain ⟨n, hn, rfl⟩ := Option.map_eq_some_iff.mp h
      rw [List.drop_succ_cons]
      exact find_some hn

theorem find_first {pat : List α} : ∀ {s : List α} {i : ℕ}, find pat s = some i →
    ∀ j < i, ¬ pat <+: s.drop j
  | [], i, h, j, hj => by
    simp only [find] at h
    split at h
    · obtain rfl : 0 = i := Option.some.inj h
      omega
    · cases h
  | x :: s, i, h, j, hj => by
    rw [find] at h
    split at h
    · obtain rfl : 0 = i := Option.some.inj h
      omega
    · rename_i hp
      obtain ⟨n, hn, rfl⟩ := Option.map_eq_some_iff.mp h
      cases j with
      | zero => exact hp
      | succ j =>
        rw [List.drop_succ_cons]
        exact find_first hn j (by omega)

theorem find_none {pat : List α} : ∀ {s : List α}, find pat s = none → ∀ j, ¬ pat <+: s.drop j
  | [], h, j => by
    simp only [find] at h
    split at h
    · cases h
    · rename_i hp
      simpa using hp
  | x :: s, h, j => by
    rw [find] at h
    split at h
    · cases h
    · rename_i hp
      cases j with
      | zero => exact hp
      | succ j =>
        rw [List.drop_succ_cons]
        exact find_none (Option.map_eq_none_iff.mp h) j

theorem find_le {pat s : List α} {i : ℕ} (h : find pat s = some i) : i + pat.length ≤ s.length ∨ pat = [] := by
  by_cases hp : pat = []
  · exact Or.inr hp
  · have h1 := (find_some h).length_le
    have h2 := List.length_pos_of_ne_nil hp
    rw [List.length_drop] at h1
    omega

/-- What comes behind a text does not move its first occurrence. -/
theorem find_extend {pat : List α} (hp : pat ≠ []) (t : List α) : ∀ {s : List α} {i : ℕ}, find pat s = some i →
    find pat (s ++ t) = some i
  | [], i, h => by
    rw [find, if_neg hp] at h
    cases h
  | x :: s, i, h => by
    have hle : i + pat.length ≤ (x :: s).length := (find_le h).resolve_right hp
    rw [find] at h
    split at h
    · rename_i hstart
      obtain rfl : 0 = i := Option.some.inj h
      exact find_of_start (hstart.trans (List.prefix_append _ t))
    · rename_i hstart
      obtain ⟨n, hn, rfl⟩ := Option.map_eq_some_iff.mp h
      have hno : ¬ pat <+: x :: (s ++ t) := fun hpre =>
        hstart (List.prefix_of_prefix_length_le hpre (List.prefix_append (x :: s) t) (by omega))
      rw [List.cons_append, find, if_neg hno, find_extend hp t hn]
      rfl

theorem find_pair_le {x y : α} {s : List α} {i : ℕ} (h : find [x, y] s = some i) : i + 2 ≤ s.length :=
  (find_le h).resolve_right nofun

/-- The text around the first occurrence. -/
theorem find_split {pat s : List α} {i : ℕ} (h : find pat s = some i) :
    s = s.take i ++ pat ++ s.drop (i + pat.length) := by
  obtain ⟨t, ht⟩ := find_some h
  have hd : s.drop (i + pat.length) = t := by
    rw [← List.drop_drop, ← ht, List.drop_left]
  rw [hd, List.append_assoc, ht, List.take_append_drop]

/-- **A free string is found again in front of the pair.** -/
theorem find_pair_append {x y : α} (hxy : x ≠ y) {s : List α} (h : Free x y s) (t : List α) :
    find [x, y] (s ++ x :: y :: t) = some s.length := by
  rw [find_append s _ (not_prefix_of_free h fun u hu e => by
    obtain rfl : x = u := by simpa using hu
    exact hxy e), find_of_start (pair_start.mpr ⟨t, rfl⟩)]
  simp

/-- What is in front of the first pair is free. -/
theorem find_pair_some {x y : α} {s : List α} {i : ℕ} (h : find [x, y] s = some i) :
    Free x y (s.take i) ∧ s = s.take i ++ x :: y :: s.drop (i + 2) := by
  refine ⟨free_of_no_start fun j hj => ?_, by simpa using find_split h⟩
  rcases Nat.lt_or_ge j i with hlt | hge
  · refine find_first h j hlt (hj.trans ?_)
    rw [List.drop_take]
    exact List.take_prefix _ _
  · rw [List.drop_eq_nil_of_le (by simp; omega)] at hj
    simp at hj

/-- An empty line search passes a free line that no empty line follows. -/
theorem find_blank_skip {x y : α} (hxy : x ≠ y) {l s : List α} (hl : Free x y l)
    (hs : ¬ [x, y] <+: s) :
    find [x, y, x, y] (l ++ x :: y :: s) = (find [x, y, x, y] s).map (· + (l.length + 2)) := by
  have hpair : [x, y] <+: [x, y, x, y] := ⟨[x, y], rfl⟩
  suffices h : ∀ j < (l ++ [x, y]).length, ¬ [x, y, x, y] <+: (l ++ [x, y] ++ s).drop j by
    simpa using find_append (l ++ [x, y]) s h
  intro j hj hp
  rw [List.length_append] at hj
  simp only [List.length_cons, List.length_nil, List.append_assoc] at hj hp
  rcases Nat.lt_or_ge j l.length with h1 | h1
  · refine not_prefix_of_free hl (t := [x, y] ++ s) (fun u hu e => ?_) j h1 (hpair.trans hp)
    obtain rfl : x = u := by simpa using hu
    exact hxy e
  · obtain ⟨k, rfl⟩ : ∃ k, j = l.length + k := ⟨j - l.length, by omega⟩
    rw [List.drop_append] at hp
    simp only [Nat.add_sub_cancel_left, List.drop_eq_nil_of_le h1, List.nil_append] at hp
    obtain ⟨t, ht⟩ := hp
    rcases (by omega : k = 0 ∨ k = 1) with rfl | rfl
    · simp only [List.drop_zero, List.cons_append, List.nil_append, List.cons.injEq, true_and] at ht
      exact hs ⟨t, by simpa using ht⟩
    · simp only [List.cons_append, List.drop_succ_cons, List.drop_zero, List.cons.injEq] at ht
      exact hxy ht.1

/-- **The first empty line of a block is its end.** The first line is free of
the line end, the others are not empty and have no `y`. -/
theorem find_blank {x y : α} (hxy : x ≠ y) : ∀ (ls : List (List α)) (l rest : List α), Free x y l →
    (∀ k ∈ ls, k ≠ [] ∧ y ∉ k) →
    find [x, y, x, y] (block x y (l :: ls) ++ x :: y :: rest) = some ((block x y (l :: ls)).length - 2)
  | [], l, rest, hl, _ => by
    have hnot : ∀ j < l.length, ¬ [x, y, x, y] <+: (l ++ x :: y :: x :: y :: rest).drop j := by
      intro j hj hp
      have hpair : [x, y] <+: [x, y, x, y] := ⟨[x, y], rfl⟩
      refine not_prefix_of_free hl (t := x :: y :: x :: y :: rest) (fun u hu e => ?_) j hj (hpair.trans hp)
      obtain rfl : x = u := by simpa using hu
      exact hxy e
    rw [block_cons, block_nil, List.append_assoc, List.cons_append, List.cons_append, List.nil_append,
      find_append l _ hnot, find_of_start (s := x :: y :: x :: y :: rest) ⟨rest, rfl⟩]
    simp
  | k :: ks, l, rest, hl, hk => by
    obtain ⟨hk0, hky⟩ := hk k List.mem_cons_self
    have ih := find_blank hxy ks k rest (free_of_notMem_right hky)
      fun k' hk' => hk k' (List.mem_cons_of_mem _ hk')
    have hs : ¬ [x, y] <+: block x y (k :: ks) ++ x :: y :: rest := by
      rw [block_cons, List.append_assoc, List.cons_append]
      exact not_pair_start hxy hk0 hky _
    rw [block_cons x y l, List.append_assoc, List.cons_append, List.cons_append,
      find_blank_skip hxy hl hs, ih]
    simp only [Option.map_some, block_cons, List.length_append, List.length_cons]
    congr 1
    omega

end Find

/-! ### Splitting -/

section Split

variable [DecidableEq α]

/-- The words between the separators; the empty string has no word. -/
def splitView (c : α) (s : List α) : List (List α) := if s = [] then [] else s.splitOn c

theorem splitView_of_ne_nil (c : α) {s : List α} (h : s ≠ []) : splitView c s = s.splitOn c := if_neg h

theorem infix_of_mem_splitOn {c : α} : ∀ {s w : List α}, w ∈ s.splitOn c → w <:+: s
  | [], w, h => by
    rw [List.splitOn_nil, List.mem_singleton] at h
    rw [h]
  | u :: s, w, h => by
    rw [List.splitOn_cons_eq_if_modifyHead] at h
    split at h
    · rcases List.mem_cons.mp h with rfl | h
      · exact List.nil_infix
      · exact (infix_of_mem_splitOn h).trans (List.suffix_cons u s).isInfix
    · obtain ⟨v, vs, hv⟩ := List.exists_cons_of_ne_nil (List.splitOn_ne_nil c s)
      have hpre : v <+: s := by
        rw [← s.intercalate_splitOn c, hv]
        cases vs with
        | nil => simp
        | cons w ws => simp [List.intercalate_cons_of_ne_nil]
      rw [hv, List.modifyHead_cons] at h
      rcases List.mem_cons.mp h with rfl | h
      · exact (List.prefix_cons_inj u |>.mpr hpre).isInfix
      · exact (infix_of_mem_splitOn (hv ▸ List.mem_cons_of_mem _ h)).trans (List.suffix_cons u s).isInfix

theorem notMem_of_mem_splitOn {c : α} : ∀ {s w : List α}, w ∈ s.splitOn c → c ∉ w
  | [], w, h => by
    rw [List.splitOn_nil, List.mem_singleton] at h
    simp [h]
  | u :: s, w, h => by
    rw [List.splitOn_cons_eq_if_modifyHead] at h
    split at h
    · rcases List.mem_cons.mp h with rfl | h
      · simp
      · exact notMem_of_mem_splitOn h
    · rename_i hu
      obtain ⟨v, vs, hv⟩ := List.exists_cons_of_ne_nil (List.splitOn_ne_nil c s)
      rw [hv, List.modifyHead_cons] at h
      rcases List.mem_cons.mp h with rfl | h
      · have hcv : c ∉ v := notMem_of_mem_splitOn (s := s) (hv ▸ List.mem_cons_self)
        have huc : c ≠ u := fun e => hu (by simp [e])
        simp [huc, hcv]
      · exact notMem_of_mem_splitOn (s := s) (hv ▸ List.mem_cons_of_mem _ h)

theorem mem_splitView {c : α} {s w : List α} (h : w ∈ splitView c s) : w <:+: s ∧ c ∉ w := by
  unfold splitView at h
  split at h
  · cases h
  · exact ⟨infix_of_mem_splitOn h, notMem_of_mem_splitOn h⟩

/-- Split at its second letter, a block gives back its lines with the first
letter of the line end, and the rest. -/
theorem splitOn_block {x y : α} (hxy : x ≠ y) : ∀ (ls : List (List α)) (s : List α), (∀ l ∈ ls, y ∉ l) →
    (block x y ls ++ s).splitOn y = ls.map (· ++ [x]) ++ s.splitOn y
  | [], s, _ => by simp
  | l :: ls, s, h => by
    have hl : y ∉ l ++ [x] := by
      simp only [List.mem_append, List.mem_singleton, not_or]
      exact ⟨h l List.mem_cons_self, fun e => hxy e.symm⟩
    have hsplit : block x y (l :: ls) ++ s = (l ++ [x]) ++ y :: (block x y ls ++ s) := by simp
    rw [hsplit, List.splitOn_append_cons_self_of_not_mem hl,
      splitOn_block hxy ls s fun k hk => h k (List.mem_cons_of_mem _ hk), List.map_cons, List.cons_append]

end Split

end Text
