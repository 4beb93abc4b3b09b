/-
# Sets kept in the order of a key

`SortedSet α key` is a set of elements with one element for each key, kept as
a list that is strictly increasing in the key. Inserting an element whose key
is there changes nothing (the first one stays); erasing goes by the key. A map
is such a set of pairs with `key = Prod.fst`.

A set is determined by its lookups (`ext_get`), the lookups after an insert,
an erase or a list of inserts are computed (`get_insert`, `get_erase`,
`get_insertAll`), and a scan stops at an element that all smaller keys let
pass (`scan_toList_eq_some`), also by an error (`scan_first`).

Key definitions: `SortedSet`, `insert`, `erase`, `get`, `insertAll`,
`scan`, `mapKey`.
-/
import Mathlib.Order.Basic
import Mathlib.Data.List.Pairwise
import Mathlib.Tactic

/-- A set with one element for each key, in the order of the keys. -/
@[ext] structure SortedSet (α : Type*) {κ : Type*} [LinearOrder κ] (key : α → κ) where
  toList : List α
  sorted : toList.Pairwise fun a b => key a < key b

namespace SortedSet

variable {α κ : Type*} [LinearOrder κ] {key : α → κ}

instance : Membership α (SortedSet α key) := ⟨fun s a => a ∈ s.toList⟩

theorem mem_def {s : SortedSet α key} {a : α} : a ∈ s ↔ a ∈ s.toList := Iff.rfl

instance {p : α → Prop} [DecidablePred p] (s : SortedSet α key) : Decidable (∀ a ∈ s, p a) :=
  inferInstanceAs (Decidable (∀ a ∈ s.toList, p a))

/-- The set without elements. -/
def empty : SortedSet α key := ⟨[], List.Pairwise.nil⟩

instance : EmptyCollection (SortedSet α key) := ⟨empty⟩

theorem notMem_empty (a : α) : a ∉ (∅ : SortedSet α key) := List.not_mem_nil

/-- In a list of different keys the search for a key finds its one element. -/
theorem find?_key {k : κ} {a : α} : ∀ {l : List α}, l.Pairwise (fun a b => key a ≠ key b) →
    (l.find? (fun b => key b = k) = some a ↔ a ∈ l ∧ key a = k)
  | [], _ => by simp
  | b :: l, h => by
    obtain ⟨hb, hl⟩ := List.pairwise_cons.mp h
    by_cases hk : key b = k
    · rw [List.find?_cons_of_pos (by simpa using hk), Option.some.injEq, List.mem_cons]
      constructor
      · rintro rfl
        exact ⟨Or.inl rfl, hk⟩
      · rintro ⟨rfl | ha, hka⟩
        · rfl
        · exact absurd (hk.trans hka.symm) (hb a ha)
    · rw [List.find?_cons_of_neg (by simpa using hk), find?_key hl, List.mem_cons]
      constructor
      · exact fun ⟨ha, hka⟩ => ⟨Or.inr ha, hka⟩
      · rintro ⟨rfl | ha, hka⟩
        · exact absurd hka hk
        · exact ⟨ha, hka⟩

theorem keys_ne (s : SortedSet α key) : s.toList.Pairwise fun a b => key a ≠ key b :=
  s.sorted.imp fun h => h.ne

/-! ### Insertion -/

/-- `a` at its place in a sorted list, unless its key is there. -/
def insertList (key : α → κ) (a : α) : List α → List α
  | [] => [a]
  | b :: l => if key a < key b then a :: b :: l else if key a = key b then b :: l else b :: insertList key a l

theorem mem_insertList {a c : α} : ∀ {l : List α}, l.Pairwise (fun x y => key x < key y) →
    (c ∈ insertList key a l ↔ c ∈ l ∨ c = a ∧ ∀ b ∈ l, key b ≠ key a)
  | [], _ => by simp [insertList]
  | b :: l, h => by
    obtain ⟨hb, hl⟩ := List.pairwise_cons.mp h
    unfold insertList
    split
    · rename_i hlt
      have hall : ∀ x ∈ b :: l, key x ≠ key a := by
        intro x hx
        rcases List.mem_cons.mp hx with rfl | hx
        · exact hlt.ne'
        · exact (hlt.trans (hb x hx)).ne'
      rw [List.mem_cons]
      tauto
    · split
      · rename_i he
        constructor
        · exact Or.inl
        · rintro (hc | ⟨-, hne⟩)
          · exact hc
          · exact absurd he.symm (hne b List.mem_cons_self)
      · rename_i he
        rw [List.mem_cons, List.mem_cons, mem_insertList hl, List.forall_mem_cons]
        have : key b ≠ key a := fun e => he e.symm
        tauto

theorem sorted_insertList {a : α} : ∀ {l : List α}, l.Pairwise (fun x y => key x < key y) →
    (insertList key a l).Pairwise fun x y => key x < key y
  | [], _ => List.pairwise_singleton _ _
  | b :: l, h => by
    obtain ⟨hb, hl⟩ := List.pairwise_cons.mp h
    unfold insertList
    split
    · rename_i hlt
      refine List.pairwise_cons.mpr ⟨fun x hx => ?_, h⟩
      rcases List.mem_cons.mp hx with rfl | hx
      · exact hlt
      · exact hlt.trans (hb x hx)
    · split
      · exact h
      · rename_i hlt he
        refine List.pairwise_cons.mpr ⟨fun x hx => ?_, sorted_insertList hl⟩
        rcases (mem_insertList hl).mp hx with hx | ⟨rfl, -⟩
        · exact hb x hx
        · exact lt_of_le_of_ne (not_lt.mp hlt) (Ne.symm he)

/-- An element whose key is not there goes behind the smaller ones. -/
theorem insertList_split {a : α} : ∀ {l : List α}, l.Pairwise (fun x y => key x < key y) → (∀ b ∈ l, key b ≠ key a) →
    ∃ l₁ l₂, l = l₁ ++ l₂ ∧ insertList key a l = l₁ ++ a :: l₂ ∧ (∀ b ∈ l₁, key b < key a) ∧ ∀ b ∈ l₂, key a < key b
  | [], _, _ => ⟨[], [], rfl, rfl, nofun, nofun⟩
  | b :: l, h, hne => by
    obtain ⟨hb, hl⟩ := List.pairwise_cons.mp h
    have hba : key b ≠ key a := hne b List.mem_cons_self
    unfold insertList
    split
    · rename_i hlt
      refine ⟨[], b :: l, rfl, rfl, nofun, fun c hc => ?_⟩
      rcases List.mem_cons.mp hc with rfl | hc
      · exact hlt
      · exact hlt.trans (hb c hc)
    · rename_i hlt
      obtain ⟨l₁, l₂, rfl, hins, h₁, h₂⟩ := insertList_split hl fun c hc => hne c (List.mem_cons_of_mem _ hc)
      rw [if_neg hba.symm, hins]
      refine ⟨b :: l₁, l₂, rfl, rfl, fun c hc => ?_, h₂⟩
      rcases List.mem_cons.mp hc with rfl | hc
      · exact lt_of_le_of_ne (not_lt.mp hlt) hba
      · exact h₁ c hc

/-- An element whose key is there is not inserted. -/
theorem insertList_of_mem {a : α} : ∀ {l : List α}, l.Pairwise (fun x y => key x < key y) → (∃ b ∈ l, key b = key a) →
    insertList key a l = l
  | [], _, h => by
    obtain ⟨b, hb, -⟩ := h
    cases hb
  | b :: l, h, hex => by
    obtain ⟨hb, hl⟩ := List.pairwise_cons.mp h
    obtain ⟨c, hc, hca⟩ := hex
    unfold insertList
    rcases List.mem_cons.mp hc with rfl | hc
    · rw [if_neg hca.not_gt, if_pos hca.symm]
    · have hlt : key b < key a := (hb c hc).trans_eq hca
      rw [if_neg hlt.not_gt, if_neg hlt.ne', insertList_of_mem hl ⟨c, hc, hca⟩]

/-- The set with `a`, unless an element with its key is there. -/
def insert (s : SortedSet α key) (a : α) : SortedSet α key :=
  ⟨insertList key a s.toList, sorted_insertList s.sorted⟩

theorem mem_insert {s : SortedSet α key} {a c : α} :
    c ∈ s.insert a ↔ c ∈ s ∨ c = a ∧ ∀ b ∈ s, key b ≠ key a := mem_insertList s.sorted

/-- A new key goes between the smaller and the greater ones. -/
theorem toList_insert {s : SortedSet α key} {a : α} (h : ∀ b ∈ s, key b ≠ key a) :
    ∃ l₁ l₂, s.toList = l₁ ++ l₂ ∧ (s.insert a).toList = l₁ ++ a :: l₂ ∧ (∀ b ∈ l₁, key b < key a) ∧
      ∀ b ∈ l₂, key a < key b := insertList_split s.sorted h

theorem insert_of_mem {s : SortedSet α key} {a : α} (h : ∃ b ∈ s, key b = key a) : s.insert a = s :=
  SortedSet.ext (insertList_of_mem s.sorted h)

/-- Of an inserted element the key is there. -/
theorem exists_mem_insert (s : SortedSet α key) (a : α) : ∃ b ∈ s.insert a, key b = key a := by
  by_cases h : ∃ b ∈ s, key b = key a
  · obtain ⟨b, hb, hk⟩ := h
    exact ⟨b, mem_insert.mpr (Or.inl hb), hk⟩
  · exact ⟨a, mem_insert.mpr (Or.inr ⟨rfl, fun b hb hk => h ⟨b, hb, hk⟩⟩), rfl⟩

/-- The set without the element of key `k`. -/
def erase (s : SortedSet α key) (k : κ) : SortedSet α key :=
  ⟨s.toList.filter fun a => key a ≠ k, s.sorted.filter _⟩

theorem mem_erase {s : SortedSet α key} {k : κ} {c : α} : c ∈ s.erase k ↔ c ∈ s ∧ key c ≠ k := by
  simp [erase, mem_def]

/-! ### Lookup -/

/-- The element of key `k`. -/
def get (s : SortedSet α key) (k : κ) : Option α := s.toList.find? fun a => key a = k

theorem get_eq_some {s : SortedSet α key} {k : κ} {a : α} : s.get k = some a ↔ a ∈ s ∧ key a = k :=
  find?_key s.keys_ne

theorem get_eq_none {s : SortedSet α key} {k : κ} : s.get k = none ↔ ∀ a ∈ s, key a ≠ k := by
  simp [get, mem_def]

theorem get_empty (k : κ) : (∅ : SortedSet α key).get k = none := rfl

/-- A lookup is determined by the elements. -/
theorem get_congr {s t : SortedSet α key} {k : κ} (h : ∀ a, key a = k → (a ∈ s ↔ a ∈ t)) :
    s.get k = t.get k := by
  refine Option.ext fun a => ?_
  rw [get_eq_some, get_eq_some]
  exact and_congr_left (h a)

theorem get_insert (s : SortedSet α key) (a : α) (k : κ) :
    (s.insert a).get k = if k = key a then some ((s.get k).getD a) else s.get k := by
  split
  · rename_i hk
    subst hk
    rw [get_eq_some]
    cases hg : s.get (key a) with
    | none => exact ⟨mem_insert.mpr (Or.inr ⟨rfl, get_eq_none.mp hg⟩), rfl⟩
    | some b =>
      obtain ⟨hb, hk⟩ := get_eq_some.mp hg
      exact ⟨mem_insert.mpr (Or.inl hb), hk⟩
  · rename_i hk
    refine get_congr fun c hc => ?_
    rw [mem_insert]
    have : c ≠ a := fun e => hk (by rw [← hc, e])
    tauto

theorem get_erase (s : SortedSet α key) (k' k : κ) :
    (s.erase k').get k = if k = k' then none else s.get k := by
  split
  · rename_i hk
    rw [get_eq_none]
    intro a ha
    rw [hk]
    exact (mem_erase.mp ha).2
  · rename_i hk
    refine get_congr fun c hc => ?_
    rw [mem_erase]
    have : key c ≠ k' := fun e => hk (by rw [← hc, e])
    tauto

/-- A strictly sorted list is determined by its elements. -/
theorem sorted_ext : ∀ {l m : List α}, l.Pairwise (fun x y => key x < key y) →
    m.Pairwise (fun x y => key x < key y) → (∀ a, a ∈ l ↔ a ∈ m) → l = m
  | [], m, _, _, h => (List.eq_nil_iff_forall_not_mem.mpr fun a ha => List.not_mem_nil ((h a).mpr ha)).symm
  | a :: l, [], _, _, h => absurd ((h a).mp List.mem_cons_self) List.not_mem_nil
  | a :: l, b :: m, hl, hm, h => by
    obtain ⟨ha, hl'⟩ := List.pairwise_cons.mp hl
    obtain ⟨hb, hm'⟩ := List.pairwise_cons.mp hm
    obtain rfl : a = b := by
      rcases List.mem_cons.mp ((h a).mp List.mem_cons_self) with e | e
      · exact e
      · rcases List.mem_cons.mp ((h b).mpr List.mem_cons_self) with e' | e'
        · exact e'.symm
        · exact absurd ((hb a e).trans (ha b e')) (lt_irrefl _)
    congr 1
    refine sorted_ext hl' hm' fun c => ⟨fun hc => ?_, fun hc => ?_⟩
    · rcases List.mem_cons.mp ((h c).mp (List.mem_cons_of_mem _ hc)) with rfl | hc'
      · exact absurd (ha c hc) (lt_irrefl _)
      · exact hc'
    · rcases List.mem_cons.mp ((h c).mpr (List.mem_cons_of_mem _ hc)) with rfl | hc'
      · exact absurd (hb c hc) (lt_irrefl _)
      · exact hc'

/-- **A set is its lookups.** -/
theorem ext_get {s t : SortedSet α key} (h : ∀ k, s.get k = t.get k) : s = t := by
  refine SortedSet.ext (sorted_ext s.sorted t.sorted fun a => ?_)
  have := h (key a)
  constructor
  · intro ha
    exact (get_eq_some.mp (this ▸ get_eq_some.mpr ⟨ha, rfl⟩)).1
  · intro ha
    exact (get_eq_some.mp (this.symm ▸ get_eq_some.mpr ⟨ha, rfl⟩)).1

/-! ### Many insertions -/

/-- The list inserted in its order. -/
def insertAll (s : SortedSet α key) (l : List α) : SortedSet α key := l.foldl insert s

@[simp] theorem insertAll_nil (s : SortedSet α key) : s.insertAll [] = s := rfl

@[simp] theorem insertAll_cons (s : SortedSet α key) (a : α) (l : List α) :
    s.insertAll (a :: l) = (s.insert a).insertAll l := rfl

/-- **The first element of a key stays.** -/
theorem get_insertAll (k : κ) : ∀ (l : List α) (s : SortedSet α key),
    (s.insertAll l).get k = (s.get k).or (l.find? fun a => key a = k)
  | [], s => by simp
  | a :: l, s => by
    rw [insertAll_cons, get_insertAll k l, get_insert]
    by_cases hk : k = key a
    · subst hk
      cases s.get (key a) <;> simp
    · rw [if_neg hk, List.find?_cons_of_neg (by simpa using Ne.symm hk)]

theorem mem_of_mem_insertAll {c : α} : ∀ {l : List α} {s : SortedSet α key},
    c ∈ s.insertAll l → c ∈ s ∨ c ∈ l
  | [], _, h => Or.inl h
  | a :: l, s, h => by
    rcases mem_of_mem_insertAll (l := l) h with h | h
    · rcases mem_insert.mp h with h | ⟨rfl, -⟩
      · exact Or.inl h
      · exact Or.inr List.mem_cons_self
    · exact Or.inr (List.mem_cons_of_mem _ h)

/-- Elements of different keys all go into the empty set. -/
theorem mem_insertAll {c : α} {l : List α} (hl : l.Pairwise fun a b => key a ≠ key b) :
    c ∈ (∅ : SortedSet α key).insertAll l ↔ c ∈ l := by
  have hget := get_insertAll (key c) l (∅ : SortedSet α key)
  rw [get_empty, Option.none_or] at hget
  constructor
  · intro h
    have hc := get_eq_some.mpr ⟨h, rfl⟩
    rw [hget] at hc
    exact ((find?_key hl).mp hc).1
  · intro h
    have hc := (find?_key hl).mpr ⟨h, rfl⟩
    rw [← hget] at hc
    exact (get_eq_some.mp hc).1

theorem insertAll_toList (s : SortedSet α key) : (∅ : SortedSet α key).insertAll s.toList = s := by
  refine ext_get fun k => ?_
  rw [get_insertAll, get_empty, Option.none_or]
  rfl

/-- Elements of different keys may be inserted in any order. -/
theorem insertAll_perm {l m : List α} (h : l.Perm m) (hl : l.Pairwise fun a b => key a ≠ key b)
    (s : SortedSet α key) : s.insertAll l = s.insertAll m := by
  have hm : m.Pairwise fun a b => key a ≠ key b := h.pairwise hl Ne.symm
  refine ext_get fun k => ?_
  rw [get_insertAll, get_insertAll]
  congr 1
  refine Option.ext fun a => ?_
  rw [find?_key hl, find?_key hm, h.mem_iff]

/-! ### Scans

A scan asks the elements in order, each question may end in an exception. -/

/-- The first element of which `p` holds; the exception of `p` if one comes
earlier. -/
def scan {ε : Type*} (p : α → Except ε Bool) : List α → Except ε (Option α)
  | [] => .ok none
  | a :: l =>
    match p a with
    | .error e => .error e
    | .ok true => .ok (some a)
    | .ok false => scan p l

theorem scan_eq_some {ε : Type*} {p : α → Except ε Bool} {a : α} : ∀ {l : List α},
    scan p l = .ok (some a) ↔ ∃ as bs, l = as ++ a :: bs ∧ p a = .ok true ∧ ∀ b ∈ as, p b = .ok false
  | [] => by simp [scan]
  | c :: l => by
    rw [scan]
    constructor
    · intro h
      split at h
      · cases h
      · rename_i hc
        cases h
        exact ⟨[], l, rfl, hc, fun b hb => absurd hb List.not_mem_nil⟩
      · rename_i hc
        obtain ⟨as, bs, rfl, ha, has⟩ := scan_eq_some.mp h
        exact ⟨c :: as, bs, rfl, ha, List.forall_mem_cons.mpr ⟨hc, has⟩⟩
    · rintro ⟨as, bs, hl, ha, has⟩
      cases as with
      | nil =>
        obtain ⟨rfl, rfl⟩ := List.cons.inj hl
        rw [ha]
      | cons d as =>
        obtain ⟨rfl, rfl⟩ := List.cons.inj hl
        obtain ⟨hd, has⟩ := List.forall_mem_cons.mp has
        rw [hd]
        exact scan_eq_some.mpr ⟨as, bs, rfl, ha, has⟩

theorem scan_eq_none {ε : Type*} {p : α → Except ε Bool} : ∀ {l : List α},
    scan p l = .ok none ↔ ∀ b ∈ l, p b = .ok false
  | [] => by simp [scan]
  | c :: l => by
    rw [scan, List.forall_mem_cons]
    split
    · rename_i e hc
      simp [hc]
    · rename_i hc
      simp [hc]
    · rename_i hc
      simp only [hc, true_and]
      exact scan_eq_none

/-- A scan of questions that never throw ends. -/
theorem scan_ok {ε : Type*} {p : α → Except ε Bool} : ∀ {l : List α},
    (∀ b ∈ l, ∃ v, p b = .ok v) → ∃ r, scan p l = .ok r
  | [], _ => ⟨none, rfl⟩
  | c :: l, h => by
    obtain ⟨⟨v, hv⟩, hl⟩ := List.forall_mem_cons.mp h
    rw [scan, hv]
    cases v with
    | true => exact ⟨some c, rfl⟩
    | false => exact scan_ok hl

/-- What stands before an element has a smaller key. -/
theorem mem_before {s : SortedSet α key} {a : α} {as bs : List α} (h : s.toList = as ++ a :: bs) (b : α) :
    b ∈ as ↔ b ∈ s ∧ key b < key a := by
  have hsort := s.sorted
  rw [h, List.pairwise_append, List.pairwise_cons] at hsort
  obtain ⟨-, ⟨hbs, -⟩, has⟩ := hsort
  rw [mem_def, h, List.mem_append, List.mem_cons]
  constructor
  · exact fun hb => ⟨Or.inl hb, has b hb a List.mem_cons_self⟩
  · rintro ⟨hb | rfl | hb, hlt⟩
    · exact hb
    · exact absurd hlt (lt_irrefl _)
    · exact absurd (hlt.trans (hbs b hb)) (lt_irrefl _)

/-- **A scan of a set stops at an element that all smaller keys let pass.** -/
theorem scan_toList_eq_some {ε : Type*} {p : α → Except ε Bool} {s : SortedSet α key} {a : α} :
    scan p s.toList = .ok (some a) ↔ a ∈ s ∧ p a = .ok true ∧ ∀ b ∈ s, key b < key a → p b = .ok false := by
  rw [scan_eq_some]
  constructor
  · rintro ⟨as, bs, hl, ha, has⟩
    refine ⟨?_, ha, fun b hb hlt => has b ((mem_before hl b).mpr ⟨hb, hlt⟩)⟩
    rw [mem_def, hl]
    simp
  · rintro ⟨ha, hpa, hall⟩
    obtain ⟨as, bs, hl⟩ := List.append_of_mem (mem_def.mp ha)
    refine ⟨as, bs, hl, hpa, fun b hb => ?_⟩
    obtain ⟨hbs, hlt⟩ := (mem_before hl b).mp hb
    exact hall b hbs hlt

/-- The first element that fails a test, if one does. -/
theorem exists_first (P : α → Prop) (s : SortedSet α key) :
    (∃ a ∈ s, ¬ P a ∧ ∀ b ∈ s, key b < key a → P b) ∨ ∀ b ∈ s, P b := by
  have hlist : ∀ l : List α, (∃ as a bs, l = as ++ a :: bs ∧ ¬ P a ∧ ∀ b ∈ as, P b) ∨ ∀ b ∈ l, P b := by
    intro l
    induction l with
    | nil => exact Or.inr fun b hb => (List.not_mem_nil hb).elim
    | cons c l ih =>
      by_cases hc : P c
      · rcases ih with ⟨as, a, bs, rfl, ha, has⟩ | hl
        · exact Or.inl ⟨c :: as, a, bs, rfl, ha, List.forall_mem_cons.mpr ⟨hc, has⟩⟩
        · exact Or.inr (List.forall_mem_cons.mpr ⟨hc, hl⟩)
      · exact Or.inl ⟨[], c, l, rfl, hc, fun b hb => (List.not_mem_nil hb).elim⟩
  rcases hlist s.toList with ⟨as, a, bs, hl, ha, has⟩ | h
  · refine Or.inl ⟨a, ?_, ha, fun b hb hlt => has b ((mem_before hl b).mpr ⟨hb, hlt⟩)⟩
    rw [mem_def, hl]
    simp
  · exact Or.inr h

theorem scan_append {ε : Type*} {p : α → Except ε Bool} : ∀ {as : List α} (l : List α),
    (∀ b ∈ as, p b = .ok false) → scan p (as ++ l) = scan p l
  | [], _, _ => rfl
  | c :: as, l, h => by
    obtain ⟨hc, has⟩ := List.forall_mem_cons.mp h
    rw [List.cons_append, scan, hc]
    exact scan_append l has

/-- **A scan of a set ends at the first element that does not let it pass.** -/
theorem scan_first {ε : Type*} {p : α → Except ε Bool} {s : SortedSet α key} {a : α} (ha : a ∈ s)
    (hp : p a ≠ .ok false) (h : ∀ b ∈ s, key b < key a → p b = .ok false) :
    scan p s.toList = (p a).map fun _ => some a := by
  obtain ⟨as, bs, hl⟩ := List.append_of_mem (mem_def.mp ha)
  have has : ∀ b ∈ as, p b = .ok false := fun b hb => by
    obtain ⟨hbs, hlt⟩ := (mem_before hl b).mp hb
    exact h b hbs hlt
  rw [hl, scan_append _ has, scan]
  cases hpa : p a with
  | error e => rfl
  | ok v =>
    cases v with
    | true => rfl
    | false => exact absurd hpa hp

/-- A scan asks its questions of the elements only. -/
theorem scan_congr {ε : Type*} {p q : α → Except ε Bool} : ∀ {l : List α}, (∀ a ∈ l, p a = q a) → scan p l = scan q l
  | [], _ => rfl
  | c :: l, h => by
    obtain ⟨hc, hl⟩ := List.forall_mem_cons.mp h
    rw [scan, scan, hc, scan_congr hl]

theorem scan_map {ε : Type*} (p : α → Except ε Bool) (f : α → α) : ∀ l : List α,
    scan p (l.map f) = (scan (fun a => p (f a)) l).map (Option.map f)
  | [] => rfl
  | c :: l => by
    rw [List.map_cons, scan, scan, scan_map p f l]
    cases p (f c) with
    | error e => rfl
    | ok v => cases v <;> rfl

/-! ### Changes that keep the keys -/

/-- The set with every element changed and every key kept. -/
def mapKey (s : SortedSet α key) (f : α → α) (hf : ∀ a, key (f a) = key a) : SortedSet α key :=
  ⟨s.toList.map f, List.pairwise_map.mpr (s.sorted.imp fun h => by rwa [hf, hf])⟩

theorem mem_mapKey {s : SortedSet α key} {f : α → α} (hf : ∀ a, key (f a) = key a) {c : α} :
    c ∈ s.mapKey f hf ↔ ∃ a ∈ s, f a = c := List.mem_map

end SortedSet
