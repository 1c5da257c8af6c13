import Nettapus.Proof.Semaphore

/-!
# Holders of a semaphore

What a step does to the holders of the semaphores, and to the place of the current task (`HoldStep`, `Pc.Goes`), and when
a list of waiting tasks is there at all: the count is then at its limit (`reach_full`).
-/

namespace Nettapus

open Runs

variable {k k' : Kernel} {s t : ℕ} {R : List ℕ} {W : Obj → List ℕ} {e : Event} {m : ℕ → ℕ} {c : Call}

/-! ## The current task goes on -/

/-- The next place in a call, or behind it. -/
def Pc.Goes (p p' : Pc) : Prop :=
  (∃ c, p = .call .ret c ∧ p' = .user) ∨
    ∃ g g' c, p = .call g c ∧ p' = .call g' c ∧ (g' = .body → ∃ q, c = .signal q)

/-- What a step does to the holders. -/
inductive HoldStep (k k' : Kernel) : Prop
  | same (hheld : k'.held = k.held) (hgranted : k'.granted = k.granted)
      (hpc : ∀ s, k.pc k.cur ≠ .call .body (.release s))
  | take (s : ℕ) (hpc : k.pc k.cur = .call .body (.acquire s))
      (hheld : k'.held = Function.update k.held s (k.held s ++ [k.cur]))
      (hgranted : k'.granted = Function.update k.granted k.cur true)
  | give (s : ℕ) (hpc : k.pc k.cur = .call .body (.release s))
      (hheld : k'.held = Function.update k.held s ((k.held s).erase k.cur)) (hgranted : k'.granted = k.granted)
  | pass (s f : ℕ) (hpc : k.pc k.cur = .call .body (.release s)) (hf : f ∈ k.waiting (.sem s))
      (hheld : k'.held = Function.update k.held s ((k.held s).erase k.cur ++ [f]))
      (hgranted : k'.granted = Function.update k.granted f true)

theorem SyncInv.body_holds (h : SyncInv k R W) (hpc : k.pc k.cur = .call .body c) (hs : k.body c = some k') :
    HoldStep k k' ∧ ∃ g, k'.pc = Function.update k.pc k.cur (.call g c) ∧ g ≠ .body := by
  have hnot : ∀ {c'}, c ≠ c' → k.pc k.cur ≠ .call .body c' := by
    intro c' hne hc
    rw [hpc] at hc
    exact hne (Pc.call.inj hc).2
  cases c with
  | acquire s =>
    simp only [Kernel.body] at hs
    split_ifs at hs
    · obtain rfl := Option.some.inj hs
      exact ⟨.same rfl rfl fun s' => hnot (by simp), .block, rfl, by simp⟩
    · obtain rfl := Option.some.inj hs
      exact ⟨.take s hpc rfl rfl, .unlock, rfl, by simp⟩
  | release s =>
    simp only [Kernel.body] at hs
    split_ifs at hs with hfirst
    · obtain rfl := Option.some.inj hs
      exact ⟨.give s hpc rfl rfl, .unlock, rfl, by simp⟩
    · obtain rfl := Option.some.inj hs
      obtain ⟨-, -, hw⟩ := h.first_waits (o := .sem s) hfirst
      refine ⟨.pass s _ hpc hw ?_ rfl, .unlock, rfl, by simp⟩
      simp only [Kernel.setPc, Kernel.leave, Kernel.grant, Kernel.giveUp, Kernel.setSem, Function.update_self,
        Function.update_idem, Kernel.first]
  | wait q =>
    obtain rfl := Option.some.inj hs
    exact ⟨.same rfl rfl fun s' => hnot (by simp), .block, rfl, by simp⟩
  | signal q =>
    obtain rfl := Option.some.inj hs
    exact ⟨.same rfl rfl fun s' => hnot (by simp), .unlock, rfl, by simp⟩
  | unlock => cases hs

/-- **The current task goes on.** -/
theorem SyncInv.run_holds (h : SyncInv k R W) (hs : k.advance (k.pc k.cur) = some k') :
    HoldStep k k' ∧ ∃ p, k'.pc = Function.update k.pc k.cur p ∧ (k.pc k.cur).Goes p := by
  cases hpc : k.pc k.cur with
  | user =>
    rw [hpc] at hs
    cases hs
  | call g c =>
    rw [hpc] at hs
    have hsame : g ≠ .body → k'.held = k.held → k'.granted = k.granted → HoldStep k k' := by
      intro hg hheld hgranted
      refine .same hheld hgranted fun s hs => hg ?_
      rw [hpc] at hs
      exact (Pc.call.inj hs).1
    have hgoes : ∀ {g'}, (g' = .body → ∃ q, c = .signal q) → (Pc.call g c).Goes (.call g' c) :=
      fun hg => .inr ⟨_, _, _, rfl, rfl, hg⟩
    cases g with
    | lock =>
      cases c with
      | signal q =>
        obtain rfl := Option.some.inj hs
        exact ⟨hsame (by simp) rfl rfl, _, rfl, hgoes fun _ => ⟨q, rfl⟩⟩
      | acquire | release | wait | unlock => cases hs
    | body =>
      obtain ⟨hold, g', hpc', hg⟩ := h.body_holds hpc hs
      exact ⟨hold, _, hpc', hgoes fun hb => absurd hb hg⟩
    | block =>
      obtain rfl := Option.some.inj hs
      exact ⟨hsame (by simp) rfl rfl, _, rfl, hgoes (by simp)⟩
    | unlock =>
      simp only [Kernel.advance] at hs
      split_ifs at hs
      · obtain rfl := Option.some.inj hs
        exact ⟨hsame (by simp) rfl rfl, _, rfl, hgoes (by simp)⟩
      · obtain rfl := Option.some.inj hs
        exact ⟨hsame (by simp) rfl rfl, _, rfl, hgoes (by simp)⟩
    | test =>
      simp only [Kernel.advance] at hs
      split_ifs at hs
      · obtain rfl := Option.some.inj hs
        exact ⟨hsame (by simp) rfl rfl, _, rfl, hgoes (by simp)⟩
      · obtain rfl := Option.some.inj hs
        exact ⟨hsame (by simp) rfl rfl, _, rfl, hgoes (by simp)⟩
    | reset =>
      obtain rfl := Option.some.inj hs
      exact ⟨hsame (by simp) rfl rfl, _, rfl, hgoes (by simp)⟩
    | yield =>
      obtain rfl := Option.some.inj hs
      exact ⟨hsame (by simp) rfl rfl, _, rfl, hgoes (by simp)⟩
    | ret =>
      obtain rfl := Option.some.inj hs
      exact ⟨hsame (by simp) rfl rfl, _, rfl, .inl ⟨c, rfl, rfl⟩⟩

/-! ## The start of a call -/

/-- The steps that do not make a call or go on in one. -/
def Event.Still : Event → Prop
  | .call _ => False
  | .run => False
  | _ => True

theorem step_still (he : e.Still) (hs : k.step e = some k') :
    k'.pc = k.pc ∧ k'.held = k.held ∧ k'.granted = k.granted := by
  cases e with
  | call | run => cases he
  | timer =>
    obtain rfl := Option.some.inj hs
    exact ⟨rfl, rfl, rfl⟩
  | lock | idle | create | copy =>
    simp only [Kernel.step] at hs
    split_ifs at hs
    obtain rfl := Option.some.inj hs
    exact ⟨rfl, rfl, rfl⟩

/-- The current task makes a call. -/
theorem step_call (hs : k.step (.call c) = some k') : k.cur ≠ k.idle ∧ k.pc k.cur = .user ∧ k.enter c = some k' := by
  simp only [Kernel.step] at hs
  split_ifs at hs with hg
  exact ⟨hg.1, hg.2, hs⟩

theorem enter_holds (hpc : k.pc k.cur = .user) (hs : k.enter c = some k') : k'.held = k.held ∧
    (∃ p, k'.pc = Function.update k.pc k.cur p ∧ (p = .user ∨ ∃ g, p = .call g c)) ∧
    ∀ t, t ≠ k.cur → k'.granted t = k.granted t := by
  have hself : k.pc = Function.update k.pc k.cur .user := by
    rw [← hpc]
    exact (Function.update_eq_self _ _).symm
  cases c with
  | acquire s =>
    simp only [Kernel.enter] at hs
    split_ifs at hs
    · obtain rfl := Option.some.inj hs
      exact ⟨rfl, ⟨_, hself, .inl rfl⟩, fun _ _ => rfl⟩
    · obtain rfl := Option.some.inj hs
      exact ⟨rfl, ⟨_, rfl, .inr ⟨_, rfl⟩⟩, fun t ht => Function.update_of_ne ht _ _⟩
  | release | wait | signal | unlock =>
    simp only [Kernel.enter] at hs
    split_ifs at hs
    all_goals obtain rfl := Option.some.inj hs
    all_goals first
      | exact ⟨rfl, ⟨_, hself, .inl rfl⟩, fun _ _ => rfl⟩
      | exact ⟨rfl, ⟨_, rfl, .inr ⟨_, rfl⟩⟩, fun _ _ => rfl⟩

theorem enter_acquire (hs : k.enter (.acquire s) = some k') :
    s = NULL ∧ k' = k ∨ s ≠ NULL ∧ k'.pc k.cur = .call .body (.acquire s) ∧ k'.granted k.cur = false := by
  simp only [Kernel.enter] at hs
  split_ifs at hs with h0
  · exact .inl ⟨h0, (Option.some.inj hs).symm⟩
  · obtain rfl := Option.some.inj hs
    exact .inr ⟨h0, Function.update_self _ _ _, Function.update_self _ _ _⟩

theorem enter_release (hs : k.enter (.release s) = some k') :
    s = NULL ∧ k' = k ∨ s ≠ NULL ∧ k'.pc k.cur = .call .body (.release s) ∧ k'.granted = k.granted := by
  simp only [Kernel.enter] at hs
  split_ifs at hs with h0
  · exact .inl ⟨h0, (Option.some.inj hs).symm⟩
  · obtain rfl := Option.some.inj hs
    exact .inr ⟨h0, Function.update_self _ _ _, rfl⟩

/-! ## Waiting lists -/

/-- A list of waiting tasks is there only if the count is at its limit. -/
def Semaphore.Full (n : Semaphore) : Prop := n.firstWaitingTask ≠ NULL → n.maxCount ≤ n.currentCount

theorem setCount_full {n : Semaphore} (h : n.firstWaitingTask = NULL) (count : ℕ) : (n.setCount count).Full :=
  fun hne => absurd h hne

theorem semEnqueue_full {c : Sched} {n : Semaphore} (h : n.maxCount ≤ n.currentCount) : (semEnqueue c n).2.Full := by
  unfold semEnqueue
  split_ifs
  · exact fun _ => h
  · exact fun _ => h

theorem semHandOver_full {c : Sched} {n : Semaphore} (h : n.maxCount ≤ n.currentCount) : (semHandOver c n).2.Full := by
  unfold semHandOver
  dsimp only
  split_ifs
  · exact fun _ => h
  · exact fun _ => h

theorem body_full (hs : k.body c = some k') (h : ∀ s, (k.sem s).Full) (s : ℕ) : (k'.sem s).Full := by
  have hupdate : ∀ {s' n}, Semaphore.Full n → (Function.update k.sem s' n s).Full := by
    intro s' n hn
    rw [Function.update_apply]
    split_ifs
    · exact hn
    · exact h s
  cases c with
  | acquire s' =>
    simp only [Kernel.body] at hs
    split_ifs at hs with hge
    · obtain rfl := Option.some.inj hs
      exact hupdate (semEnqueue_full hge)
    · obtain rfl := Option.some.inj hs
      -- below the limit there is no list
      exact hupdate (setCount_full (not_not.1 fun hfirst => hge (h s' hfirst)) _)
  | release s' =>
    simp only [Kernel.body] at hs
    split_ifs at hs with hfirst
    · obtain rfl := Option.some.inj hs
      exact hupdate (setCount_full hfirst _)
    · obtain rfl := Option.some.inj hs
      exact hupdate (semHandOver_full (h s' hfirst))
  | wait q =>
    obtain rfl := Option.some.inj hs
    exact h s
  | signal q =>
    obtain rfl := Option.some.inj hs
    exact h s
  | unlock => cases hs

theorem step_full (hs : k.step e = some k') (h : ∀ s, (k.sem s).Full) (s : ℕ) : (k'.sem s).Full := by
  have hsame : k'.sem = k.sem → (k'.sem s).Full := fun heq => heq ▸ h s
  cases e with
  | call c => exact hsame (enter_sem (step_call hs).2.2)
  | timer =>
    obtain rfl := Option.some.inj hs
    exact h s
  | lock | idle | create | copy =>
    simp only [Kernel.step] at hs
    split_ifs at hs
    obtain rfl := Option.some.inj hs
    exact h s
  | run =>
    have hadv : k.advance (k.pc k.cur) = some k' := hs
    cases hpc : k.pc k.cur with
    | user =>
      rw [hpc] at hadv
      cases hadv
    | call g c =>
      rw [hpc] at hadv
      cases g with
      | body => exact body_full hadv h s
      | lock =>
        cases c with
        | signal q =>
          obtain rfl := Option.some.inj hadv
          exact h s
        | acquire | release | wait | unlock => cases hadv
      | unlock | test =>
        simp only [Kernel.advance] at hadv
        split_ifs at hadv <;> obtain rfl := Option.some.inj hadv <;> exact h s
      | block | reset | yield | ret =>
        obtain rfl := Option.some.inj hadv
        exact h s

theorem reach_full {ok : Kernel → Event → Prop} (hs : Reach (SyncInit m) Kernel.step ok k) (s : ℕ) :
    (k.sem s).Full := by
  refine hs.inv (I := fun k => ∀ s, (k.sem s).Full) (fun k h s => ?_) (fun k e k' hI _ hst => step_full hst hI) s
  obtain ⟨-, c, -, -, rfl⟩ := h
  exact fun hne => absurd rfl hne

end Nettapus
