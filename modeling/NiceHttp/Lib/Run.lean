/-
# Runs of a step function

A system is a step function that answers with nothing when a step is not
possible. `run` makes a sequence of steps, `Always` says that every step of a
run meets a condition on the state before it. An invariant that steps under
the condition keep holds after every such run (`invariant`), and what it
implies of a single step holds of all of them (`Always.imp`). An invariant may
also speak of the steps that were made (`history`), and a rank that steps take
from bounds their number (`length_le`).

Key definitions: `run`, `Always`, `trace`, `count`.
Key theorems: `invariant`, `kept`, `history`, `Always.imp`, `length_le`,
`simulation`, `simulation_run`, `simulation_trace`.
-/
import Mathlib.Tactic

namespace Run

variable {σ α : Type*} (step : σ → α → Option σ)

/-- The state after the steps, if each was possible. -/
def run (s : σ) (as : List α) : Option σ := as.foldlM step s

/-- Every step of the run meets the condition. -/
def Always (ok : σ → α → Prop) : σ → List α → Prop
  | _, [] => True
  | s, a :: as => ok s a ∧ ∀ s', step s a = some s' → Always ok s' as

variable {step} {ok ok' : σ → α → Prop} {I : σ → Prop}

theorem run_cons (s : σ) (a : α) (as : List α) :
    run step s (a :: as) = (step s a).bind fun s' => run step s' as := rfl

theorem run_single {s s' : σ} {a : α} (h : step s a = some s') : run step s [a] = some s' := by
  rw [run_cons, h]
  rfl

theorem always_of_forall (h : ∀ s a, ok s a) : ∀ (s : σ) (as : List α), Always step ok s as
  | _, [] => trivial
  | s, a :: as => ⟨h s a, fun t _ => always_of_forall h t as⟩

theorem always_of_mem : ∀ {as : List α}, (∀ a ∈ as, ∀ s, ok s a) → ∀ s : σ, Always step ok s as
  | [], _, _ => trivial
  | a :: _, h, s =>
    ⟨h a List.mem_cons_self s, fun t _ => always_of_mem (fun b hb => h b (List.mem_cons_of_mem a hb)) t⟩

/-- A run that starts with the step `s → t`. -/
theorem Always.cons {s t : σ} {a : α} {as : List α} (ht : step s a = some t) (h : ok s a)
    (hrest : Always step ok t as) : Always step ok s (a :: as) :=
  ⟨h, fun _ hs => Option.some.inj (ht.symm.trans hs) ▸ hrest⟩

/-- Whether a run meets a decidable condition at every step. -/
instance Always.decidable [∀ s a, Decidable (ok s a)] : ∀ (s : σ) (as : List α), Decidable (Always step ok s as)
  | _, [] => isTrue trivial
  | s, a :: as =>
    match h : step s a with
    | none => decidable_of_iff (ok s a)
        ⟨fun hok => ⟨hok, fun _ ht => absurd (h.symm.trans ht) nofun⟩, fun hok => hok.1⟩
    | some t =>
      have := Always.decidable t as
      decidable_of_iff (ok s a ∧ Always step ok t as) ⟨fun hok => .cons h hok.1 hok.2, fun hok => ⟨hok.1, hok.2 t h⟩⟩

/-- **An invariant of the steps that meet the condition** holds after a run of
such steps. -/
theorem invariant (hstep : ∀ {s a s'}, I s → ok s a → step s a = some s' → I s') :
    ∀ {as : List α} {s s' : σ}, I s → Always step ok s as → run step s as = some s' → I s'
  | [], _, _, hI, _, hrun => Option.some.inj hrun ▸ hI
  | a :: as, s, s', hI, hok, hrun => by
    rw [run_cons] at hrun
    obtain ⟨t, ht, hrest⟩ := Option.bind_eq_some_iff.mp hrun
    exact invariant hstep (hstep hI hok.1 ht) (hok.2 t ht) hrest

/-- **An invariant of all steps** holds after every run. -/
theorem kept (hstep : ∀ {s a s'}, I s → step s a = some s' → I s') {as : List α} {s s' : σ} (hI : I s)
    (hrun : run step s as = some s') : I s' :=
  invariant (fun hI _ h => hstep hI h) hI (always_of_forall (fun _ _ => trivial) s as) hrun

theorem run_append (s : σ) (as bs : List α) : run step s (as ++ bs) = (run step s as).bind fun t => run step t bs := by
  rw [run, List.foldlM_append]
  rfl

theorem run_concat (s : σ) (as : List α) (a : α) : run step s (as ++ [a]) = (run step s as).bind fun t => step t a := by
  rw [run, run, List.foldlM_append]
  cases as.foldlM step s with
  | none => rfl
  | some t => simp

/-- **An invariant of the state and the steps so far** holds after every run. -/
theorem history {s₀ : σ} {I : List α → σ → Prop} (hinit : I [] s₀)
    (hstep : ∀ {as s a s'}, I as s → step s a = some s' → I (as ++ [a]) s') (as : List α) :
    ∀ {s : σ}, run step s₀ as = some s → I as s := by
  induction as using List.reverseRecOn with
  | nil => exact fun hrun => Option.some.inj hrun ▸ hinit
  | append_singleton as a ih =>
    intro s hrun
    rw [run_concat] at hrun
    obtain ⟨t, ht, hs⟩ := Option.bind_eq_some_iff.mp hrun
    exact hstep (ih ht) hs

/-- **What the invariant implies of one step** holds of every step of a run. -/
theorem Always.imp (hstep : ∀ {s a s'}, I s → ok s a → step s a = some s' → I s')
    (himp : ∀ {s a}, I s → ok s a → ok' s a) :
    ∀ {as : List α} {s : σ}, I s → Always step ok s as → Always step ok' s as
  | [], _, _, _ => trivial
  | _ :: _, _, hI, hok =>
    ⟨himp hI hok.1, fun _ ht => Always.imp hstep himp (hstep hI hok.1 ht) (hok.2 _ ht)⟩

/-- What the steps of the run show, in their order. -/
def trace {β : Type*} (step : σ → α → Option σ) (f : σ → α → List β) : σ → List α → List β
  | _, [] => []
  | s, a :: as => f s a ++ ((step s a).map fun s' => trace step f s' as).getD []

theorem trace_cons {β : Type*} (f : σ → α → List β) {s s' : σ} {a : α} (h : step s a = some s') (as : List α) :
    trace step f s (a :: as) = f s a ++ trace step f s' as := by
  rw [trace, h]
  rfl

/-- How many steps of the run meet the condition. -/
def count (step : σ → α → Option σ) (p : σ → α → Bool) : σ → List α → ℕ
  | _, [] => 0
  | s, a :: as => (if p s a then 1 else 0) + ((step s a).map fun s' => count step p s' as).getD 0

/-- **An amortised bound.** If every step takes from the rank, but for what its
price adds and, under the condition, a fixed amount, then a run has no more
steps than the rank at its start and these additions. -/
theorem length_le {p : σ → α → Bool} {rank : σ → ℕ} {price : α → ℕ} {k : ℕ}
    (h : ∀ {s a s'}, step s a = some s' → rank s' + 1 ≤ rank s + price a + if p s a then k else 0) :
    ∀ {as : List α} {s s' : σ}, run step s as = some s' →
      rank s' + as.length ≤ rank s + (as.map price).sum + k * count step p s as
  | [], _, _, hrun => by
    rw [Option.some.inj hrun]
    exact Nat.le_add_right _ _
  | a :: as, s, s', hrun => by
    rw [run_cons] at hrun
    obtain ⟨t, ht, hrest⟩ := Option.bind_eq_some_iff.mp hrun
    have hfirst := h ht
    have hbehind := length_le h hrest
    simp only [List.length_cons, List.map_cons, List.sum_cons, count, ht, Option.map_some, Option.getD_some, mul_add,
      mul_ite, mul_one, mul_zero]
    omega

theorem Always.append : ∀ {as bs : List α} {s t : σ}, Always step ok s as → run step s as = some t →
    Always step ok t bs → Always step ok s (as ++ bs)
  | [], _, _, _, _, hrun, hbs => Option.some.inj hrun ▸ hbs
  | _ :: _, _, _, _, has, hrun, hbs => by
    rw [run_cons] at hrun
    obtain ⟨u, hu, hrest⟩ := Option.bind_eq_some_iff.mp hrun
    exact .cons hu has.1 ((has.2 u hu).append hrest hbs)

/-- **A simulation.** If a map of the states takes every step to a run of
another system, and the condition on the step to one on that run, it takes every
run to one. -/
theorem simulation {τ β : Type*} {step' : τ → β → Option τ} {cond : τ → β → Prop} (f : σ → τ) (g : σ → α → List β)
    (h : ∀ {s a s'}, step s a = some s' → ok s a →
      run step' (f s) (g s a) = some (f s') ∧ Always step' cond (f s) (g s a)) :
    ∀ {as : List α} {s s' : σ}, run step s as = some s' → Always step ok s as →
      ∃ bs, run step' (f s) bs = some (f s') ∧ Always step' cond (f s) bs
  | [], _, _, hrun, _ => ⟨[], congrArg (Option.map f) hrun, trivial⟩
  | a :: as, s, s', hrun, hok => by
    rw [run_cons] at hrun
    obtain ⟨t, ht, hrest⟩ := Option.bind_eq_some_iff.mp hrun
    obtain ⟨hfirst, hcond⟩ := h ht hok.1
    obtain ⟨bs, hbs, hconds⟩ := simulation f g h hrest (hok.2 t ht)
    refine ⟨g s a ++ bs, ?_, hcond.append hfirst hconds⟩
    rw [run_append, hfirst]
    exact hbs

/-- A simulation without conditions. -/
theorem simulation_run {τ β : Type*} {step' : τ → β → Option τ} (f : σ → τ) (g : σ → α → List β)
    (h : ∀ {s a s'}, step s a = some s' → run step' (f s) (g s a) = some (f s')) {as : List α} {s s' : σ}
    (hrun : run step s as = some s') : ∃ bs, run step' (f s) bs = some (f s') := by
  have hcond : ∀ {s a s'}, step s a = some s' → True →
      run step' (f s) (g s a) = some (f s') ∧ Always step' (fun _ _ => True) (f s) (g s a) := fun h' _ =>
    ⟨h h', always_of_forall (fun _ _ => trivial) _ _⟩
  obtain ⟨bs, hbs, -⟩ := simulation f g hcond hrun (always_of_forall (fun _ _ => trivial) _ _)
  exact ⟨bs, hbs⟩

/-- **The run that a simulation leads to** is what the steps show. -/
theorem simulation_trace {τ β : Type*} {step' : τ → β → Option τ} (f : σ → τ) (g : σ → α → List β)
    (h : ∀ {s a s'}, step s a = some s' → run step' (f s) (g s a) = some (f s')) :
    ∀ {as : List α} {s s' : σ}, run step s as = some s' → run step' (f s) (trace step g s as) = some (f s')
  | [], _, _, hrun => congrArg (Option.map f) hrun
  | a :: as, s, s', hrun => by
    rw [run_cons] at hrun
    obtain ⟨t, ht, hrest⟩ := Option.bind_eq_some_iff.mp hrun
    rw [trace_cons g ht, run_append, h ht]
    exact simulation_trace f g h hrest

end Run
