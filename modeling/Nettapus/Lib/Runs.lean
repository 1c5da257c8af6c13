import Mathlib.Algebra.GroupWithZero.Nat
import Mathlib.Data.List.Basic
import Mathlib.Data.List.Induction
import Mathlib.Tactic.Common

/-!
# Runs of a system

A system is a step function over states and events; a step that is not possible has no
result. `Reach init step ok` are the states of the runs from `init` whose steps all meet
`ok`, a condition on the event and the state before it. `Reach.inv` is the rule for
invariants, and `run` takes several steps at once. `foldlM_inv` and `foldlM_reach` are
the rules for loops that may fail; `Yields` says of a computation what it gives, and when it
gives something at all, and `Yields.foldlM_range` is its rule for counting loops. `Refines` compares a
computation that stops at a guard with the one that goes on. `Every` is a condition on the events of a run, each with
those before it.
-/

namespace Runs

variable {σ ε : Type*}

/-- The states reached from `init` by steps that all meet `ok`. -/
inductive Reach (init : σ → Prop) (step : σ → ε → Option σ) (ok : σ → ε → Prop) : σ → Prop
  | init {s : σ} (h : init s) : Reach init step ok s
  | step {s s' : σ} {e : ε} (hs : Reach init step ok s) (hok : ok s e) (h : step s e = some s') :
      Reach init step ok s'

/-- The condition that every step meets. -/
def Any (_ : σ) (_ : ε) : Prop := True

variable {init : σ → Prop} {step : σ → ε → Option σ} {ok : σ → ε → Prop} {s s' : σ}

/-- **The rule for invariants.** -/
theorem Reach.inv {I : σ → Prop} (hs : Reach init step ok s) (h0 : ∀ s, init s → I s)
    (h1 : ∀ s e s', I s → ok s e → step s e = some s' → I s') : I s := by
  induction hs with
  | init h => exact h0 _ h
  | step _ hok h ih => exact h1 _ _ _ ih hok h

/-- The steps of a list of events, as long as they meet a test. -/
def run (step : σ → ε → Option σ) (test : σ → ε → Bool) : σ → List ε → Option σ
  | s, [] => some s
  | s, e :: es => if test s e then (step s e).bind fun s' => run step test s' es else none

/-- A state that a list of events leads to is reached. -/
theorem Reach.run {test : σ → ε → Bool} (hs : Reach init step ok s)
    (ht : ∀ s e, test s e = true → ok s e) (es : List ε) (h : Runs.run step test s es = some s') :
    Reach init step ok s' := by
  induction es generalizing s with
  | nil =>
    obtain rfl := Option.some.inj h
    exact hs
  | cons e es ih =>
    unfold Runs.run at h
    split_ifs at h with he
    obtain ⟨s₁, h1, h2⟩ := Option.bind_eq_some_iff.1 h
    exact ih (.step hs (ht s e he) h1) h2

/-! ## Loops -/

section Loop

variable {β γ : Type*} {f : β → γ → Option β} {J Q : β → Prop} {l : List γ} {b b' : β} {x₀ : γ}

/-- What every iteration keeps, a loop keeps. -/
theorem foldlM_inv (hJ : ∀ b x b', x ∈ l → J b → f b x = some b' → J b') (hb : J b)
    (h : l.foldlM f b = some b') : J b' := by
  induction l generalizing b with
  | nil =>
    obtain rfl := Option.some.inj h
    exact hb
  | cons x l ih =>
    obtain ⟨b₁, h1, h2⟩ := Option.bind_eq_some_iff.1 h
    exact ih (fun b x b' hx => hJ b x b' (List.mem_cons_of_mem _ hx)) (hJ b x b₁ List.mem_cons_self hb h1) h2

/-- What one iteration reaches, and the others keep, a loop reaches. -/
theorem foldlM_reach (hJ : ∀ b x b', x ∈ l → J b → f b x = some b' → J b')
    (hQ : ∀ b x b', x ∈ l → J b → Q b → f b x = some b' → Q b') (hx : x₀ ∈ l)
    (h₀ : ∀ b b', J b → f b x₀ = some b' → Q b') (hb : J b) (h : l.foldlM f b = some b') : Q b' := by
  induction l generalizing b with
  | nil => cases hx
  | cons x l ih =>
    obtain ⟨b₁, h1, h2⟩ := Option.bind_eq_some_iff.1 h
    have hb₁ : J b₁ := hJ b x b₁ List.mem_cons_self hb h1
    have hJ' : ∀ b x b', x ∈ l → J b → f b x = some b' → J b' :=
      fun b x b' hx => hJ b x b' (List.mem_cons_of_mem _ hx)
    have hQ' : ∀ b x b', x ∈ l → J b → Q b → f b x = some b' → Q b' :=
      fun b x b' hx => hQ b x b' (List.mem_cons_of_mem _ hx)
    rcases List.mem_cons.1 hx with rfl | hx
    · have hq := foldlM_inv (J := fun b => J b ∧ Q b)
        (fun b x b' hx hb hf => ⟨hJ' b x b' hx hb.1 hf, hQ' b x b' hx hb.1 hb.2 hf⟩) ⟨hb₁, h₀ b b₁ hb h1⟩ h2
      exact hq.2
    · exact ih hJ' hQ' hx hb₁ h2

end Loop

/-! ## What a computation yields -/

section Yields

variable {β γ : Type*} {E : Prop} {o : Option β} {Q : β → Prop}

/-- The result of `o`, if there is one, meets `Q`; and there is one if `E`. -/
def Yields (E : Prop) (o : Option β) (Q : β → Prop) : Prop := (∀ b, o = some b → Q b) ∧ (E → ∃ b, o = some b)

theorem Yields.some {b : β} (h : Q b) : Yields E (Option.some b) Q :=
  ⟨fun _ hb => Option.some.inj hb ▸ h, fun _ => ⟨b, rfl⟩⟩

theorem Yields.bind {f : β → Option γ} {Q' : γ → Prop} (h : Yields E o Q) (hf : ∀ b, Q b → Yields E (f b) Q') :
    Yields E (o.bind f) Q' := by
  constructor
  · intro c hc
    obtain ⟨b, hb, hc⟩ := Option.bind_eq_some_iff.1 hc
    exact (hf b (h.1 b hb)).1 c hc
  · intro hE
    obtain ⟨b, hb⟩ := h.2 hE
    obtain ⟨c, hc⟩ := (hf b (h.1 b hb)).2 hE
    exact ⟨c, Option.bind_eq_some_iff.2 ⟨b, hb, hc⟩⟩

theorem Yields.map {f : β → γ} {Q' : γ → Prop} (h : Yields E o Q) (hf : ∀ b, Q b → Q' (f b)) :
    Yields E (o.map f) Q' := by
  rw [Option.map_eq_bind]
  exact h.bind fun b hb => .some (hf b hb)

/-- **The rule for counting loops.** -/
theorem Yields.foldlM_range {f : β → ℕ → Option β} {J : ℕ → β → Prop} {b : β} {n : ℕ} (hb : J 0 b)
    (hJ : ∀ i b, i < n → J i b → Yields E (f b i) (J (i + 1))) : Yields E ((List.range n).foldlM f b) (J n) := by
  induction n with
  | zero => exact .some hb
  | succ n ih =>
    rw [List.range_succ, List.foldlM_append]
    refine (ih fun i b hi => hJ i b (by omega)).bind fun b' hb' => ?_
    rw [List.foldlM_cons]
    exact (hJ n b' (by omega) hb').bind fun c hc => .some hc

end Yields

/-! ## Guards -/

section Refines

variable {β γ : Type*} {o o' o₁ o₁' : Option β}

/-- `o` gives what `o'` gives, or nothing. -/
def Refines (o o' : Option β) : Prop := ∀ b, o = some b → o' = some b

theorem Refines.refl (o : Option β) : Refines o o := fun _ h => h

theorem Refines.bind {f f' : β → Option γ} (h : Refines o o') (hf : ∀ b, Refines (f b) (f' b)) :
    Refines (o.bind f) (o'.bind f') := by
  intro c hc
  obtain ⟨b, hb, hc⟩ := Option.bind_eq_some_iff.1 hc
  exact Option.bind_eq_some_iff.2 ⟨b, h b hb, hf b c hc⟩

theorem Refines.map (h : Refines o o') (f : β → γ) : Refines (o.map f) (o'.map f) := by
  intro c hc
  obtain ⟨b, hb, hc⟩ := Option.map_eq_some_iff.1 hc
  exact Option.map_eq_some_iff.2 ⟨b, h b hb, hc⟩

theorem Refines.ite {p : Prop} [Decidable p] (h : Refines o o') (h₁ : Refines o₁ o₁') :
    Refines (if p then o else o₁) (if p then o' else o₁') := by
  split_ifs
  · exact h
  · exact h₁

/-- The guard may stop the computation. -/
theorem Refines.guard {p : Prop} [Decidable p] (h : Refines o o') : Refines (if p then o else none) o' := by
  split_ifs
  · exact h
  · intro b hb
    cases hb

end Refines

/-! ## Events with those before them -/

section Every

variable {ι : Type*} {ok : List ι → ι → Prop} {es pre : List ι} {e : ι}

/-- Every event is allowed after those before it. -/
def Every (ok : List ι → ι → Prop) (es : List ι) : Prop := ∀ pre e post, es = pre ++ e :: post → ok pre e

@[simp] theorem every_nil : Every ok [] := by simp [Every]

theorem every_append : Every ok (es ++ [e]) ↔ Every ok es ∧ ok es e := by
  constructor
  · intro h
    exact ⟨fun pre e' post heq => h pre e' (post ++ [e]) (by simp [heq]), h es e [] rfl⟩
  · rintro ⟨h, he⟩ pre e' post heq
    rcases List.eq_nil_or_concat' post with rfl | ⟨post, x, rfl⟩
    · obtain ⟨rfl, hx⟩ := List.append_inj' heq rfl
      simpa using (List.singleton_inj.1 hx) ▸ he
    · have heq : es ++ [e] = (pre ++ e' :: post) ++ [x] := by simp [heq]
      exact h pre e' post (List.append_inj' heq rfl).1

theorem Every.of_prefix (h : Every ok es) (hp : pre <+: es) : Every ok pre := by
  obtain ⟨post, rfl⟩ := hp
  intro pre' e post' heq
  exact h pre' e (post' ++ post) (by simp [heq])

theorem every_and {ok' : List ι → ι → Prop} : Every (fun pre e => ok pre e ∧ ok' pre e) es ↔ Every ok es ∧ Every ok' es :=
  ⟨fun h => ⟨fun pre e post heq => (h pre e post heq).1, fun pre e post heq => (h pre e post heq).2⟩,
    fun h pre e post heq => ⟨h.1 pre e post heq, h.2 pre e post heq⟩⟩

/-- A condition on the events alone. -/
theorem every_const {P : ι → Prop} : Every (fun _ e => P e) es ↔ ∀ e ∈ es, P e := by
  constructor
  · intro h e he
    obtain ⟨pre, post, heq⟩ := List.append_of_mem he
    exact h pre e post heq
  · intro h pre e post heq
    exact h e (by simp [heq])

/-- Two conditions that agree on an event if those before it meet the first one. -/
theorem every_congr {ok' : List ι → ι → Prop} (h : ∀ pre e, Every ok pre → (ok pre e ↔ ok' pre e)) :
    Every ok es ↔ Every ok' es := by
  induction es using List.reverseRecOn with
  | nil => simp
  | append_singleton es e ih =>
    rw [every_append, every_append, ← ih]
    exact and_congr_right fun hes => h es e hes

end Every

end Runs
