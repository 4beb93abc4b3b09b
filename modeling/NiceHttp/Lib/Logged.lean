/-
# Computations that log their calls

`Logged κ ε` is the monad of computations that may throw an `ε` and log each
of certain calls, as a `κ`, before they make it (`call`). Forgetting the log
(`result`) takes a computation to the same one without a log, step by step
(`result_bind`, `result_foldlM`), so a logged version of a program is its
program again. A condition holds of all calls of a computation if it holds of
the calls of its parts (`All.bind`, `All.foldlM`).

Key definitions: `Logged`, `result`, `calls`, `call`, `All`.
-/
import Mathlib.Control.Monad.Writer
import Mathlib.Tactic

/-- Computations that throw and log. -/
abbrev Logged (κ ε : Type) : Type → Type := ExceptT ε (Writer (List κ))

namespace Logged

variable {κ ε α β : Type}

/-- What the computation returns, or throws. -/
def result (x : Logged κ ε α) : Except ε α := Prod.fst (Id.run (WriterT.run (ExceptT.run x)))

/-- The calls that it makes, in their order. -/
def calls (x : Logged κ ε α) : List κ := Prod.snd (Id.run (WriterT.run (ExceptT.run x)))

/-- A call with its outcome. -/
def call (k : κ) (r : Except ε α) : Logged κ ε α := ExceptT.mk (WriterT.mk (pure (r, [k])))

@[simp] theorem result_call (k : κ) (r : Except ε α) : result (call k r) = r := rfl

theorem calls_bind (x : Logged κ ε α) (f : α → Logged κ ε β) :
    calls (x >>= f) = calls x ++ match result x with
      | .ok a => calls (f a)
      | .error _ => [] := by
  rcases x with ⟨r | r, l⟩
  · rfl
  · rfl

/-- **Without the log a sequence is the sequence.** -/
@[simp] theorem result_bind (x : Logged κ ε α) (f : α → Logged κ ε β) :
    result (x >>= f) = result x >>= fun a => result (f a) := by
  rcases x with ⟨r | r, l⟩
  · rfl
  · rfl

@[simp] theorem result_foldlM (f : β → α → Logged κ ε β) : ∀ (l : List α) (b : β),
    result (l.foldlM f b) = l.foldlM (fun b a => result (f b a)) b
  | [], _ => rfl
  | a :: l, b => by
    rw [List.foldlM_cons, List.foldlM_cons, result_bind]
    exact bind_congr fun b' => result_foldlM f l b'

/-! ### What holds of all calls -/

/-- Every call meets the condition. -/
def All (P : κ → Prop) (x : Logged κ ε α) : Prop := ∀ k ∈ calls x, P k

variable {P : κ → Prop}

theorem All.call {k : κ} (h : P k) (r : Except ε α) : All P (Logged.call k r) := fun _ hk =>
  List.mem_singleton.mp hk ▸ h

theorem All.pure (a : α) : All P (Pure.pure a : Logged κ ε α) := fun _ hk => (List.not_mem_nil hk).elim

/-- What is called behind a computation may depend on what it returned. -/
theorem All.bind {x : Logged κ ε α} {f : α → Logged κ ε β} (hx : All P x)
    (hf : ∀ a, result x = .ok a → All P (f a)) : All P (x >>= f) := by
  intro k hk
  rw [calls_bind] at hk
  rcases List.mem_append.mp hk with hk | hk
  · exact hx k hk
  · cases hr : result x with
    | ok a =>
      rw [hr] at hk
      exact hf a hr k hk
    | error e =>
      rw [hr] at hk
      exact (List.not_mem_nil hk).elim

theorem All.foldlM {f : β → α → Logged κ ε β} : ∀ {l : List α}, (∀ b, ∀ a ∈ l, All P (f b a)) →
    ∀ b, All P (l.foldlM f b)
  | [], _, b => All.pure b
  | a :: l, h, b => by
    rw [List.foldlM_cons]
    exact (h b a List.mem_cons_self).bind fun b' _ =>
      All.foldlM (fun c d hd => h c d (List.mem_cons_of_mem _ hd)) b'

end Logged
