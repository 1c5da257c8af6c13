import Nettapus.Lib.Runs
import Mathlib.Control.Basic
import Mathlib.Data.List.Induction
import Mathlib.Tactic.Common

/-!
# Computations that may stop

`exec` runs a computation with a state that may stop on its way; the state it had then is kept. The rules say what comes of
the parts.

`exec_forM` and `exec_forM_stops` are the rules for a run over a list of events: one that keeps an invariant as long as
every event is allowed after those before it, and stops at the first one that is not.
-/

namespace Stops

open Runs

variable {σ α β ι : Type} {s s' : σ} {a : α} {x : OptionT (StateM σ) α} {f : α → OptionT (StateM σ) β}

/-- Whether the computation gets to its end, with its value, and the state that it leaves. -/
def exec (x : OptionT (StateM σ) α) (s : σ) : Option α × σ := x.run.run s

@[simp] theorem exec_pure (a : α) (s : σ) : exec (pure a) s = (some a, s) := rfl

@[simp] theorem exec_failure (s : σ) : exec (failure : OptionT (StateM σ) α) s = (none, s) := rfl

@[simp] theorem exec_get (s : σ) : exec get s = (some s, s) := rfl

@[simp] theorem exec_modify (g : σ → σ) (s : σ) : exec (modify g) s = (some (), g s) := rfl

theorem exec_bind (x : OptionT (StateM σ) α) (f : α → OptionT (StateM σ) β) (s : σ) :
    exec (x >>= f) s = (exec x s).1.elim (none, (exec x s).2) fun a => exec (f a) (exec x s).2 := by
  simp only [exec, OptionT.run_bind, Option.elimM, StateT.run_bind]
  rcases h : x.run.run s with ⟨_ | a, s'⟩
  · rfl
  · rfl

/-- What is behind a part that gets to its end. -/
theorem exec_bind_some (h : exec x s = (some a, s')) : exec (x >>= f) s = exec (f a) s' := by
  simp [exec_bind, h]

theorem exec_bind_none (h : exec x s = (none, s')) : exec (x >>= f) s = (none, s') := by
  simp [exec_bind, h]

theorem exec_forM_cons (f : ι → OptionT (StateM σ) PUnit) {i : ι} (l : List ι) (h : exec (f i) s = (some ⟨⟩, s')) :
    exec ((i :: l).forM f) s = exec (l.forM f) s' := exec_bind_some h

/-- A loop goes on with the second list if it gets to the end of the first. -/
theorem exec_forM_append (f : ι → OptionT (StateM σ) PUnit) (l l' : List ι) (s : σ) :
    exec ((l ++ l').forM f) s =
      (exec (l.forM f) s).1.elim (none, (exec (l.forM f) s).2) fun _ => exec (l'.forM f) (exec (l.forM f) s).2 := by
  rw [← exec_bind]
  congr 1
  exact List.forM_append

/-! ## Runs -/

variable {ok : List ι → ι → Prop} {es : List ι} {I : List ι → σ → Prop} {B : σ → Prop}

/-- **The rule for runs that get to the end.** -/
theorem exec_forM {f : ι → OptionT (StateM σ) PUnit} (h : Every ok es) (h0 : I [] s)
    (hstep : ∀ es e s, I es s → ok es e → ∃ s', exec (f e) s = (some ⟨⟩, s') ∧ I (es ++ [e]) s') :
    ∃ s', exec (es.forM f) s = (some ⟨⟩, s') ∧ I es s' := by
  induction es using List.reverseRecOn with
  | nil => exact ⟨s, exec_pure _ _, h0⟩
  | append_singleton es e ih =>
    obtain ⟨h, he⟩ := every_append.1 h
    obtain ⟨s₁, h1, hI⟩ := ih h
    obtain ⟨s₂, h2, hI⟩ := hstep es e s₁ hI he
    refine ⟨s₂, ?_, hI⟩
    rw [exec_forM_append, h1]
    exact exec_bind_some h2

/-- **The rule for runs that stop.** -/
theorem exec_forM_stops {f : ι → OptionT (StateM σ) PUnit} (h : ¬ Every ok es) (h0 : I [] s)
    (hstep : ∀ es e s, I es s → ok es e → ∃ s', exec (f e) s = (some ⟨⟩, s') ∧ I (es ++ [e]) s')
    (hstop : ∀ es e s, I es s → ¬ ok es e → ∃ s', exec (f e) s = (none, s') ∧ B s') :
    ∃ s', exec (es.forM f) s = (none, s') ∧ B s' := by
  induction es using List.reverseRecOn with
  | nil => exact absurd every_nil h
  | append_singleton es e ih =>
    rw [exec_forM_append]
    by_cases hes : Every ok es
    · obtain ⟨s₁, h1, hI⟩ := exec_forM hes h0 hstep
      obtain ⟨s₂, h2, hB⟩ := hstop es e s₁ hI fun he => h (every_append.2 ⟨hes, he⟩)
      rw [h1]
      exact ⟨s₂, exec_bind_none h2, hB⟩
    · obtain ⟨s₁, h1, hB⟩ := ih hes
      rw [h1]
      exact ⟨s₁, rfl, hB⟩

end Stops
