/-
# Tables of handles

An issuer hands out handles and takes them back: a handle that is not in use
is acquired for a new resource, and released. A user may release any handle
at any time. Resources are numbered as they are issued, and `released` says
for every release which resource it hit, if any; so a table is `Exact` if
every resource is either in use, under one handle and never released, or
released once, and no release missed. Acquiring keeps a table exact, and so
does releasing a handle in use.

Key definitions: `Table`, `Table.acquire`, `Table.release`, `Exact`.
Key theorems: `Exact.acquire`, `Exact.release`, `Exact.count_eq_one`.
-/
import Mathlib.Tactic

namespace Handles

variable {δ : Type*}

/-- The resources of the handles in use, the number of resources issued, and
what the releases hit. -/
structure Table (δ : Type*) where
  names : δ → Option ℕ := fun _ => none
  issued : ℕ := 0
  released : List (Option ℕ) := []

namespace Table

variable [DecidableEq δ]

/-- A handle that is not in use goes to a new resource. -/
def acquire (t : Table δ) (d : δ) : Option (Table δ) :=
  if t.names d = none then
    some { t with names := Function.update t.names d (some t.issued), issued := t.issued + 1 }
  else none

/-- A handle is released, in use or not. -/
def release (t : Table δ) (d : δ) : Table δ :=
  { t with names := Function.update t.names d none, released := t.released ++ [t.names d] }

@[simp] theorem release_issued (t : Table δ) (d : δ) : (t.release d).issued = t.issued := rfl

theorem release_names_self (t : Table δ) (d : δ) : (t.release d).names d = none := Function.update_self ..

theorem release_names_ne (t : Table δ) {d e : δ} (h : e ≠ d) : (t.release d).names e = t.names e :=
  Function.update_of_ne h ..

theorem acquire_eq {t t' : Table δ} {d : δ} (h : t.acquire d = some t') :
    t.names d = none ∧
      t' = { t with names := Function.update t.names d (some t.issued), issued := t.issued + 1 } := by
  unfold acquire at h
  split at h
  · exact ⟨‹_›, (Option.some.inj h).symm⟩
  · cases h

/-- The handle names the new resource, and the others stay. -/
theorem acquire_names {t t' : Table δ} {d : δ} (h : t.acquire d = some t') (e : δ) :
    t'.names e = if e = d then some t.issued else t.names e := by
  obtain ⟨-, rfl⟩ := acquire_eq h
  exact Function.update_apply ..

end Table

/-- Every resource is in use, or was released once; no release missed. -/
structure Exact (t : Table δ) : Prop where
  issued : ∀ {d n}, t.names d = some n → n < t.issued
  inj : ∀ {d e n}, t.names d = some n → t.names e = some n → d = e
  hit : none ∉ t.released
  held : ∀ {d n}, t.names d = some n → t.released.count (some n) = 0
  later : ∀ {n}, t.issued ≤ n → t.released.count (some n) = 0
  gone : ∀ {n}, n < t.issued → (∀ d, t.names d ≠ some n) → t.released.count (some n) = 1

theorem exact_empty : Exact ({} : Table δ) :=
  ⟨nofun, nofun, List.not_mem_nil, nofun, fun _ => rfl, fun h => absurd h (Nat.not_lt_zero _)⟩

/-- **With no handle in use, every resource was released once.** -/
theorem Exact.count_eq_one {t : Table δ} (ht : Exact t) (h : ∀ d, t.names d = none) {n : ℕ} (hn : n < t.issued) :
    t.released.count (some n) = 1 := ht.gone hn fun d => by simp [h d]

section Keep

variable [DecidableEq δ] {t t' : Table δ} {d : δ}

/-- **Acquiring keeps the table exact.** -/
theorem Exact.acquire (ht : Exact t) (h : t.acquire d = some t') : Exact t' := by
  have hnames := Table.acquire_names h
  obtain ⟨hfree, rfl⟩ := Table.acquire_eq h
  refine ⟨fun {e n} he => ?_, fun {e f n} he hf => ?_, ht.hit, fun {e n} he => ?_, fun {n} hn => ?_,
    fun {n} hn hno => ?_⟩
  · rw [hnames] at he
    split at he
    · obtain rfl := Option.some.inj he
      exact Nat.lt_succ_self _
    · exact Nat.lt_succ_of_lt (ht.issued he)
  · rw [hnames] at he hf
    split at he <;> split at hf
    · rename_i h1 h2
      rw [h1, h2]
    · obtain rfl := Option.some.inj he
      exact absurd (ht.issued hf) (Nat.lt_irrefl _)
    · obtain rfl := Option.some.inj hf
      exact absurd (ht.issued he) (Nat.lt_irrefl _)
    · exact ht.inj he hf
  · rw [hnames] at he
    split at he
    · obtain rfl := Option.some.inj he
      exact ht.later (le_refl _)
    · exact ht.held he
  · exact ht.later (Nat.le_of_succ_le hn)
  · have hne : n ≠ t.issued := by
      rintro rfl
      exact hno d (by rw [hnames, if_pos rfl])
    refine ht.gone (by simp only at hn; omega) fun e he => hno e ?_
    have hed : e ≠ d := by
      rintro rfl
      rw [hfree] at he
      cases he
    rw [hnames, if_neg hed, he]

/-- **Releasing a handle in use keeps the table exact.** -/
theorem Exact.release (ht : Exact t) {m : ℕ} (h : t.names d = some m) : Exact (t.release d) := by
  have hold : ∀ {e n}, (t.release d).names e = some n → e ≠ d ∧ t.names e = some n := by
    intro e n he
    have hne : e ≠ d := by
      rintro rfl
      rw [Table.release_names_self] at he
      cases he
    exact ⟨hne, (t.release_names_ne hne).symm.trans he⟩
  have hcount : ∀ n, (t.release d).released.count (some n) =
      t.released.count (some n) + if n = m then 1 else 0 := by
    intro n
    simp only [Table.release, h, List.count_append, List.count_singleton, beq_iff_eq, Option.some.injEq,
      eq_comm (a := m)]
  refine ⟨fun he => ht.issued (hold he).2, fun he hf => ht.inj (hold he).2 (hold hf).2, ?_, fun {e n} he => ?_,
    fun {n} hn => ?_, fun {n} hn hno => ?_⟩
  · simp [Table.release, h, ht.hit]
  · obtain ⟨hne, he⟩ := hold he
    have hnm : n ≠ m := by
      rintro rfl
      exact hne (ht.inj he h)
    rw [hcount, ht.held he, if_neg hnm]
  · have hnm : n ≠ m := by
      rintro rfl
      have := ht.issued h
      simp only [Table.release_issued] at hn
      omega
    rw [hcount, ht.later hn, if_neg hnm]
  · by_cases hnm : n = m
    · rw [hcount, hnm, ht.held h, if_pos rfl]
    · rw [hcount, if_neg hnm, ht.gone hn fun e he => hno e ?_]
      have hed : e ≠ d := by
        rintro rfl
        exact hnm (Option.some.inj (he.symm.trans h))
      rw [t.release_names_ne hed, he]

end Keep

end Handles
