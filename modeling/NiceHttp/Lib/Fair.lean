/-
# Behaviours without end

A behaviour of a step function goes on for ever: at each time it makes a step,
or rests. Every state of it is reached by a run (`Behaviour.run_state`), and
every run is the beginning of one (`Behaviour.padded`). It is fair to a class of
steps if the class has its turn again and again: a step of it is made, or none
is possible.

A behaviour that is fair leads from one condition to another if under the first
there is a helpful class, of which a step is possible, and every step comes to
the second, or keeps the first and lowers a rank, or keeps the rank with the
class still helpful and is none of its steps (`Behaviour.leads_to`).

Key definitions: `Behaviour`, `Behaviour.Fair`, `Behaviour.LeadsTo`,
`Behaviour.map`, `Behaviour.padded`.
Key theorems: `Behaviour.run_state`, `Behaviour.leads_to`, `Behaviour.ensures`.
-/
import NiceHttp.Lib.Run

namespace Run

variable {σ α : Type*} {step : σ → α → Option σ}

/-- A step at each time, or none. -/
structure Behaviour (step : σ → α → Option σ) where
  state : ℕ → σ
  act : ℕ → Option α
  moves : ∀ {k a}, act k = some a → step (state k) a = some (state (k + 1))
  rests : ∀ {k}, act k = none → state (k + 1) = state k

namespace Behaviour

variable (b : Behaviour step)

/-- The class of steps has its turn again and again. -/
def Fair (A : Set α) : Prop :=
  ∀ k, ∃ m, k ≤ m ∧ ((∃ a ∈ A, b.act m = some a) ∨ ∀ a ∈ A, step (b.state m) a = none)

/-- Whenever the first condition holds, the second holds then or later. -/
def LeadsTo (P Q : σ → Prop) : Prop := ∀ k, P (b.state k) → ∃ m, k ≤ m ∧ Q (b.state m)

variable {b} {P Q R : σ → Prop}

theorem LeadsTo.trans (h : b.LeadsTo P Q) (h' : b.LeadsTo Q R) : b.LeadsTo P R := by
  intro k hk
  obtain ⟨m, hkm, hm⟩ := h k hk
  obtain ⟨l, hml, hl⟩ := h' m hm
  exact ⟨l, hkm.trans hml, hl⟩

theorem leadsTo_of_imp (h : ∀ k, P (b.state k) → Q (b.state k)) : b.LeadsTo P Q := fun k hk => ⟨k, le_rfl, h k hk⟩

theorem LeadsTo.or (h : b.LeadsTo P R) (h' : b.LeadsTo Q R) : b.LeadsTo (fun s => P s ∨ Q s) R :=
  fun k hk => hk.elim (h k) (h' k)

/-! ### Runs and behaviours -/

/-- **Every state of a behaviour is reached by a run.** -/
theorem run_state (b : Behaviour step) (k : ℕ) :
    run step (b.state 0) ((List.range k).filterMap b.act) = some (b.state k) := by
  induction k with
  | zero => rfl
  | succ k ih =>
    rw [List.range_succ, List.filterMap_append, run_append, ih, Option.bind_some]
    cases hk : b.act k with
    | none =>
      rw [List.filterMap_cons_none hk, b.rests hk]
      rfl
    | some a =>
      rw [List.filterMap_cons_some hk]
      exact run_single (b.moves hk)

/-- What is left of a behaviour from a time on. -/
def drop (b : Behaviour step) (k : ℕ) : Behaviour step where
  state m := b.state (k + m)
  act m := b.act (k + m)
  moves hm := b.moves hm
  rests hm := b.rests hm

theorem Fair.drop {A : Set α} (h : b.Fair A) (k : ℕ) : (b.drop k).Fair A := by
  intro m
  obtain ⟨l, hl, hturn⟩ := h (k + m)
  obtain ⟨d, rfl⟩ := Nat.exists_eq_add_of_le (Nat.le_of_add_right_le hl)
  exact ⟨d, Nat.le_of_add_le_add_left hl, hturn⟩

/-- What is left of a behaviour leads on as the whole does. -/
theorem LeadsTo.of_drop {k : ℕ} (h : (b.drop k).LeadsTo P Q) {m : ℕ} (hkm : k ≤ m) (hm : P (b.state m)) :
    ∃ l, m ≤ l ∧ Q (b.state l) := by
  obtain ⟨d, rfl⟩ := Nat.exists_eq_add_of_le hkm
  obtain ⟨e, hde, he⟩ := h d hm
  exact ⟨k + e, Nat.add_le_add_left hde k, he⟩

/-- A run leads from each state of a behaviour to a later one. -/
theorem exists_run (b : Behaviour step) {k m : ℕ} (hkm : k ≤ m) : ∃ as, run step (b.state k) as = some (b.state m) := by
  obtain ⟨d, rfl⟩ := Nat.exists_eq_add_of_le hkm
  exact ⟨_, (b.drop k).run_state d⟩

/-- What the steps from a time on keep holds from then on. -/
theorem kept (b : Behaviour step) {I : σ → Prop} {k : ℕ}
    (hstep : ∀ {m a}, k ≤ m → b.act m = some a → I (b.state m) → I (b.state (m + 1))) (hI : I (b.state k)) {m : ℕ}
    (hkm : k ≤ m) : I (b.state m) := by
  induction m, hkm using Nat.le_induction with
  | base => exact hI
  | succ m hkm ih =>
    cases hm : b.act m with
    | none =>
      rw [b.rests hm]
      exact ih
    | some a => exact hstep hkm hm ih

/-- What begins to hold begins with a step. -/
theorem exists_step (b : Behaviour step) {I : σ → Prop} (h0 : ¬ I (b.state 0)) :
    ∀ {m : ℕ}, I (b.state m) → ∃ k a, k < m ∧ b.act k = some a ∧ ¬ I (b.state k) ∧ I (b.state (k + 1)) := by
  intro m
  induction m with
  | zero => exact fun hm => absurd hm h0
  | succ m ih =>
    intro hI
    by_cases hm : I (b.state m)
    · obtain ⟨k, a, hk, hka⟩ := ih hm
      exact ⟨k, a, hk.trans (Nat.lt_succ_self m), hka⟩
    · cases ha : b.act m with
      | none =>
        rw [b.rests ha] at hI
        exact absurd hI hm
      | some a => exact ⟨m, a, Nat.lt_succ_self m, ha, hm, hI⟩

section Padded

variable {s s' : σ} {as : List α}

/-- The steps of a run, and then rest. -/
def padded (h : run step s as = some s') : Behaviour step where
  state k := (run step s (as.take k)).getD s
  act k := as[k]?
  moves {k a} hk := by
    obtain ⟨hlt, rfl⟩ := List.getElem?_eq_some_iff.mp hk
    have hsplit : as = as.take k ++ as.drop k := (List.take_append_drop k as).symm
    obtain ⟨t, ht, hrest⟩ : ∃ t, run step s (as.take k) = some t ∧ run step t (as.drop k) = some s' := by
      rw [hsplit, run_append] at h
      exact Option.bind_eq_some_iff.mp h
    rw [List.drop_eq_getElem_cons hlt, run_cons] at hrest
    obtain ⟨u, hu, -⟩ := Option.bind_eq_some_iff.mp hrest
    rw [ht, List.take_succ_eq_append_getElem hlt, run_concat, ht, Option.bind_some, hu]
    exact hu
  rests {k} hk := by
    have hle := List.getElem?_eq_none_iff.mp hk
    rw [List.take_of_length_le hle, List.take_of_length_le (hle.trans (Nat.le_succ k))]

theorem padded_state (h : run step s as = some s') {k : ℕ} (hk : as.length ≤ k) : (padded h).state k = s' := by
  show (run step s (as.take k)).getD s = s'
  rw [List.take_of_length_le hk, h, Option.getD_some]

/-- A run to a state in which no step of the class is possible. -/
theorem fair_padded (h : run step s as = some s') {A : Set α} (hA : ∀ a ∈ A, step s' a = none) : (padded h).Fair A := by
  intro k
  refine ⟨max k as.length, le_max_left _ _, Or.inr fun a ha => ?_⟩
  rw [padded_state h (le_max_right _ _)]
  exact hA a ha

end Padded

/-- A behaviour of a part, in which other steps are rest. -/
def map {τ β : Type*} {step' : τ → β → Option τ} (b : Behaviour step) (f : σ → τ) (g : σ → α → Option β)
    (hsome : ∀ {s a s' c}, step s a = some s' → g s a = some c → step' (f s) c = some (f s'))
    (hnone : ∀ {s a s'}, step s a = some s' → g s a = none → f s' = f s) : Behaviour step' where
  state k := f (b.state k)
  act k := (b.act k).bind (g (b.state k))
  moves {k c} hk := by
    obtain ⟨a, ha, hc⟩ := Option.bind_eq_some_iff.mp hk
    exact hsome (b.moves ha) hc
  rests {k} hk := by
    cases ha : b.act k with
    | none => rw [b.rests ha]
    | some a =>
      rw [ha, Option.bind_some] at hk
      exact hnone (b.moves ha) hk

/-! ### Progress -/

section Progress

variable {κ ρ : Type*} [Preorder ρ] (rank : σ → ρ)

/-- Up to a time, the rank was lowered, or the class is still helpful. -/
theorem helpful_until (A : Set α) (help : σ → Prop) {k : ℕ}
    (hstep : ∀ {k a}, b.act k = some a → P (b.state k) → help (b.state k) →
      Q (b.state (k + 1)) ∨ P (b.state (k + 1)) ∧ (rank (b.state (k + 1)) < rank (b.state k) ∨
        rank (b.state (k + 1)) = rank (b.state k) ∧ help (b.state (k + 1)) ∧ a ∉ A))
    (hP : P (b.state k)) (hc : help (b.state k)) {m : ℕ} (hkm : k ≤ m) :
    (∃ j, k ≤ j ∧ (Q (b.state j) ∨ P (b.state j) ∧ rank (b.state j) < rank (b.state k))) ∨
      P (b.state m) ∧ rank (b.state m) = rank (b.state k) ∧ help (b.state m) := by
  induction m, hkm using Nat.le_induction with
  | base => exact Or.inr ⟨hP, rfl, hc⟩
  | succ m hkm ih =>
    refine ih.elim Or.inl fun ⟨hPm, hrank, hcm⟩ => ?_
    cases hm : b.act m with
    | none =>
      rw [b.rests hm]
      exact Or.inr ⟨hPm, hrank, hcm⟩
    | some a =>
      have hle : k ≤ m + 1 := hkm.trans (Nat.le_succ m)
      rcases hstep hm hPm hcm with hQ | ⟨hP', hlt | ⟨heq, hc', -⟩⟩
      · exact Or.inl ⟨m + 1, hle, Or.inl hQ⟩
      · exact Or.inl ⟨m + 1, hle, Or.inr ⟨hP', hlt.trans_eq hrank⟩⟩
      · exact Or.inr ⟨hP', heq.trans hrank, hc'⟩

/-- **A fair behaviour makes progress** if there is always a helpful class. -/
theorem leads_to [WellFoundedLT ρ] {A : κ → Set α} (help : κ → σ → Prop) (hfair : ∀ c, b.Fair (A c))
    (hhelp : ∀ {k}, P (b.state k) → ∃ c, help c (b.state k))
    (hpossible : ∀ {k c}, P (b.state k) → help c (b.state k) → ∃ a ∈ A c, step (b.state k) a ≠ none)
    (hstep : ∀ {k a c}, b.act k = some a → P (b.state k) → help c (b.state k) →
      Q (b.state (k + 1)) ∨ P (b.state (k + 1)) ∧ (rank (b.state (k + 1)) < rank (b.state k) ∨
        rank (b.state (k + 1)) = rank (b.state k) ∧ help c (b.state (k + 1)) ∧ a ∉ A c)) :
    b.LeadsTo P Q := by
  intro k
  induction hr : rank (b.state k) using WellFoundedLT.induction generalizing k with
  | ind r ih =>
    subst hr
    intro hP
    -- a lower rank leads on
    have hlower : ∀ j, k ≤ j → Q (b.state j) ∨ P (b.state j) ∧ rank (b.state j) < rank (b.state k) →
        ∃ m, k ≤ m ∧ Q (b.state m) := by
      rintro j hkj (hQ | ⟨hPj, hlt⟩)
      · exact ⟨j, hkj, hQ⟩
      · obtain ⟨m, hjm, hm⟩ := ih _ hlt j rfl hPj
        exact ⟨m, hkj.trans hjm, hm⟩
    obtain ⟨c, hc⟩ := hhelp hP
    obtain ⟨m, hkm, hturn⟩ := hfair c k
    rcases helpful_until rank (A c) (help c) hstep hP hc hkm with ⟨j, hkj, hj⟩ | ⟨hPm, hrank, hcm⟩
    · exact hlower j hkj hj
    rcases hturn with ⟨a, ha, hm⟩ | hnone
    · rcases hstep hm hPm hcm with hQ | ⟨hP', hlt | ⟨-, -, hno⟩⟩
      · exact ⟨m + 1, hkm.trans (Nat.le_succ m), hQ⟩
      · exact hlower (m + 1) (hkm.trans (Nat.le_succ m)) (Or.inr ⟨hP', hlt.trans_eq hrank⟩)
      · exact absurd ha hno
    · obtain ⟨a, ha, hne⟩ := hpossible hPm hcm
      exact absurd (hnone a ha) hne

end Progress

/-- One class helps until its step. -/
theorem ensures {A : Set α} (hfair : b.Fair A)
    (hpossible : ∀ {k}, P (b.state k) → ∃ a ∈ A, step (b.state k) a ≠ none)
    (hstep : ∀ {k a}, b.act k = some a → P (b.state k) → Q (b.state (k + 1)) ∨ P (b.state (k + 1)) ∧ a ∉ A) :
    b.LeadsTo P Q := by
  refine leads_to (fun _ => (0 : ℕ)) (fun (_ : Unit) _ => True) (fun _ => hfair) (fun _ => ⟨(), trivial⟩)
    (fun hP _ => hpossible hP) fun hk hP _ => ?_
  exact (hstep hk hP).imp id fun ⟨hP', ha⟩ => ⟨hP', Or.inr ⟨rfl, trivial, ha⟩⟩

end Behaviour

end Run
