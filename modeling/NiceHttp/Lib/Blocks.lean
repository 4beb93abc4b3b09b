/-
# Searching a text block by block

A text that arrives in blocks of `n` letters, the last perhaps shorter
(`Blocks`), searched in each block by itself. The first occurrence that this
finds with a letter of its own block behind it (`firstSeen`) is the first in
the whole text such that the occurrence and the letter behind it are in one
block (`Seen`); an occurrence over the edge of a block, or up to it, is passed
over.

Key definitions: `Blocks`, `Seen`, `firstSeen`.
Key theorems: `firstSeen_some`, `firstSeen_none`.
-/
import NiceHttp.Lib.Text

namespace Text

variable {α : Type*}

/-- The blocks are full, but for the last one. -/
def Blocks (n : ℕ) : List (List α) → Prop
  | [] => True
  | b :: bs => b.length ≤ n ∧ (bs ≠ [] → b.length = n) ∧ Blocks n bs

/-- The pattern stands at `j`, and a letter of the same block behind it. -/
structure Seen (n : ℕ) (pat s : List α) (j : ℕ) : Prop where
  start : pat <+: s.drop j
  behind : j + pat.length < s.length
  block : j / n = (j + pat.length) / n

/-- What follows a full block is seen as if it were alone. -/
theorem seen_shift {n : ℕ} (hn : 0 < n) {pat b s : List α} (hb : b.length = n) (j : ℕ) :
    Seen n pat (b ++ s) (b.length + j) ↔ Seen n pat s j := by
  have hdrop : (b ++ s).drop (b.length + j) = s.drop j := List.drop_length_add_append j
  have hdiv : ∀ k, (b.length + k) / n = k / n + 1 := fun k => by
    rw [hb, Nat.add_comm, Nat.add_div_right k hn]
  constructor
  · rintro ⟨h1, h2, h3⟩
    rw [List.length_append] at h2
    rw [Nat.add_assoc, hdiv, hdiv] at h3
    exact ⟨hdrop ▸ h1, by omega, by omega⟩
  · rintro ⟨h1, h2, h3⟩
    refine ⟨hdrop ▸ h1, ?_, ?_⟩
    · rw [List.length_append]
      omega
    · rw [Nat.add_assoc, hdiv, hdiv, h3]

/-- In the first block, seen means with a letter of the block behind. -/
theorem seen_first {n : ℕ} {pat b s : List α} (hb : b.length ≤ n) (hs : s ≠ [] → b.length = n) {j : ℕ}
    (hj : j < b.length) : Seen n pat (b ++ s) j ↔ pat <+: b.drop j ∧ j + pat.length < b.length := by
  have hdrop : (b ++ s).drop j = b.drop j ++ s := List.drop_append_of_le_length hj.le
  constructor
  · rintro ⟨h1, h2, h3⟩
    have hlt : j + pat.length < b.length := by
      by_contra hge
      have hs0 : s ≠ [] := fun e => by
        rw [e, List.append_nil] at h2
        omega
      have hbn := hs hs0
      have h0 : j / n = 0 := Nat.div_eq_of_lt (by omega)
      have h4 : 0 < (j + pat.length) / n := Nat.div_pos (by omega) (by omega)
      omega
    refine ⟨?_, hlt⟩
    rw [hdrop] at h1
    exact List.prefix_of_prefix_length_le h1 (List.prefix_append _ _) (by rw [List.length_drop]; omega)
  · rintro ⟨h1, h2⟩
    refine ⟨hdrop ▸ h1.trans (List.prefix_append _ _), ?_, ?_⟩
    · rw [List.length_append]
      omega
    · rw [Nat.div_eq_of_lt (by omega), Nat.div_eq_of_lt (by omega)]

/-- Nothing is seen in a first block without such an occurrence. -/
theorem not_seen_first {n : ℕ} {pat b s : List α} (hb : b.length ≤ n) (hs : s ≠ [] → b.length = n)
    (h : ∀ j, pat <+: b.drop j → ¬ j + pat.length < b.length) {j : ℕ} (hj : j < b.length) :
    ¬ Seen n pat (b ++ s) j := fun hseen => by
  obtain ⟨h1, h2⟩ := (seen_first hb hs hj).mp hseen
  exact h j h1 h2

theorem Blocks.tail {n : ℕ} {b : List α} {bs : List (List α)} (h : Blocks n (b :: bs)) :
    bs.flatten ≠ [] → b.length = n := fun hne => h.2.1 fun e => hne (by rw [e]; rfl)

section Find

variable [DecidableEq α]

/-- The first occurrence in a block with a letter of the block behind it, as a
place in the whole text. -/
def firstSeen (pat : List α) : List (List α) → Option ℕ
  | [] => none
  | b :: bs =>
    match find pat b with
    | some i => if i + pat.length < b.length then some i else (firstSeen pat bs).map (· + b.length)
    | none => (firstSeen pat bs).map (· + b.length)

/-- Either the first block has an occurrence with a letter behind it, or the
search goes on behind the block. -/
theorem firstSeen_cons (pat b : List α) (bs : List (List α)) :
    (∃ i, find pat b = some i ∧ i + pat.length < b.length ∧ firstSeen pat (b :: bs) = some i) ∨
      ((∀ j, pat <+: b.drop j → ¬ j + pat.length < b.length) ∧
        firstSeen pat (b :: bs) = (firstSeen pat bs).map (· + b.length)) := by
  rw [firstSeen]
  cases hf : find pat b with
  | none => exact Or.inr ⟨fun j hj => absurd hj (find_none hf j), rfl⟩
  | some i =>
    simp only
    by_cases hi : i + pat.length < b.length
    · rw [if_pos hi]
      exact Or.inl ⟨i, rfl, hi, rfl⟩
    · rw [if_neg hi]
      refine Or.inr ⟨fun j hj hlt => ?_, rfl⟩
      have hij : i ≤ j := by
        by_contra h
        exact find_first hf j (by omega) hj
      omega

/-- **The search in blocks finds the first place that is seen.** -/
theorem firstSeen_some {n : ℕ} (hn : 0 < n) {pat : List α} : ∀ {bs : List (List α)} {i : ℕ}, Blocks n bs →
    firstSeen pat bs = some i → Seen n pat bs.flatten i ∧ ∀ j < i, ¬ Seen n pat bs.flatten j
  | [], _, _, h => by cases h
  | b :: bs, i, hbs, h => by
    have hb := hbs.1
    have htail := hbs.tail
    rw [List.flatten_cons]
    rcases firstSeen_cons pat b bs with ⟨k, hk, hlt, he⟩ | ⟨hno, he⟩
    · obtain rfl : k = i := Option.some.inj (he.symm.trans h)
      refine ⟨(seen_first hb htail (by omega)).mpr ⟨find_some hk, hlt⟩, fun j hj hseen => ?_⟩
      exact find_first hk j hj ((seen_first hb htail (by omega)).mp hseen).1
    · rw [he] at h
      obtain ⟨k, hk, rfl⟩ := Option.map_eq_some_iff.mp h
      obtain ⟨ih1, ih2⟩ := firstSeen_some hn hbs.2.2 hk
      have hfull : b.length = n := htail fun e => by
        have := ih1.behind
        rw [e] at this
        cases this
      rw [Nat.add_comm]
      refine ⟨(seen_shift hn hfull k).mpr ih1, fun j hj hseen => ?_⟩
      rcases Nat.lt_or_ge j b.length with hjb | hjb
      · exact not_seen_first hb htail hno hjb hseen
      · obtain ⟨m, rfl⟩ : ∃ m, j = b.length + m := ⟨j - b.length, by omega⟩
        exact ih2 m (by omega) ((seen_shift hn hfull m).mp hseen)

theorem firstSeen_none {n : ℕ} (hn : 0 < n) {pat : List α} : ∀ {bs : List (List α)}, Blocks n bs →
    firstSeen pat bs = none → ∀ j, ¬ Seen n pat bs.flatten j
  | [], _, _, j => fun h => by cases h.behind
  | b :: bs, hbs, h, j => fun hseen => by
    have hb := hbs.1
    have htail := hbs.tail
    rw [List.flatten_cons] at hseen
    rcases firstSeen_cons pat b bs with ⟨k, -, -, he⟩ | ⟨hno, he⟩
    · cases he.symm.trans h
    · rcases Nat.lt_or_ge j b.length with hjb | hjb
      · exact not_seen_first hb htail hno hjb hseen
      · obtain ⟨m, rfl⟩ : ∃ m, j = b.length + m := ⟨j - b.length, by omega⟩
        have hfull : b.length = n := htail fun e => by
          have := hseen.behind
          rw [e, List.append_nil] at this
          omega
        exact firstSeen_none hn hbs.2.2 (Option.map_eq_none_iff.mp (he.symm.trans h)) m
          ((seen_shift hn hfull m).mp hseen)

end Find

end Text
