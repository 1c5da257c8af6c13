import Nettapus.Proof.Semaphore
import Mathlib.Data.List.Perm.Subperm

/-!
# Queues

* `queue_waiters`: as long as every signal finds one waiting task at most, `amount_waiting`
  and the list of a queue agree with the tasks that wait for it, and the terminator's loop
  over the queue ends after `amount_waiting` iterations; with two or more tasks waiting
  it does not end.
* `queue_waiter_lost`: a signal that finds two waiting tasks loses the second one.
-/

namespace Nettapus

open Links Sched Runs

variable {k k' : Kernel} {q t : ℕ} {o : Obj} {R : List ℕ} {W : Obj → List ℕ} {e : Event} {m : ℕ → ℕ}

/-! ## `amount_waiting` -/

/-- There are fewer tasks than addresses. -/
theorem SyncInv.length_lt (h : SyncInv k R W) {L : List ℕ} (hnd : L.Nodup) (hL : ∀ t ∈ L, t ∈ k.tasks) :
    L.length < 2 ^ 64 := by
  have hnull : NULL ∉ L := fun hw => h.core.sched.null_notMem (hL _ hw)
  have hnd' : (NULL :: L).Nodup := List.nodup_cons.2 ⟨hnull, hnd⟩
  have hsub : NULL :: L ⊆ List.range (2 ^ 64) := by
    intro t ht
    rw [List.mem_range]
    rcases List.mem_cons.1 ht with rfl | ht
    · decide
    · exact h.core.addr t (hL t ht)
  have := (List.Nodup.subperm hnd' hsub).length_le
  rw [List.length_cons, List.length_range] at this
  omega

theorem SyncInv.length_waiting (h : SyncInv k R W) (o : Obj) : (k.waiting o).length < 2 ^ 64 :=
  h.length_lt (h.lists.nodup o) (h.lists.mem o)

/-- A step that meets the condition keeps the counter of a queue exact. -/
theorem Effect.amount {W' : Obj → List ℕ} {R' : List ℕ} (h : SyncInv k R W) (h' : SyncInv k' R' W')
    (hE : Effect k k' e W W') (hq : (k.queue q).amountWaiting = (k.waiting (.queue q)).length) :
    (k'.queue q).amountWaiting = (k'.waiting (.queue q)).length := by
  have hlen := h.length_waiting (.queue q)
  have hlen' := h'.length_waiting (.queue q)
  cases hE with
  | same _ h2 h3 => rw [h2, h3]; exact hq
  | join o' _ h2 h3 =>
    rw [h2] at hlen' ⊢
    rw [h3]
    split_ifs at hlen' ⊢ with ho
    · subst ho
      rw [List.length_append, List.length_singleton] at hlen' ⊢
      rw [hq, u64_of_lt hlen']
    · exact hq
  | wake o' f L _ _ hL _ _ h2 h3 =>
    rw [h2, h3]
    split_ifs with ho
    · subst ho
      have hmem : f ∈ k.waiting (.queue q) := h.lists.sub _ f (by rw [hL]; simp)
      have hpos := List.length_pos_of_mem hmem
      rw [List.length_erase_of_mem hmem, hq]
      exact sub64_of_le hpos hlen
    · exact hq

theorem reach_amount (hs : Reach (SyncInit m) Kernel.step (OneWaiter (.queue q)) k) :
    ∃ R W, SyncInv k R W ∧ W (.queue q) = k.waiting (.queue q) ∧
      (k.queue q).amountWaiting = (k.waiting (.queue q)).length := by
  refine hs.inv (I := fun k => ∃ R W, SyncInv k R W ∧ W (.queue q) = k.waiting (.queue q) ∧
    (k.queue q).amountWaiting = (k.waiting (.queue q)).length) (fun k h => ?_) fun k e k' hI hok hst => ?_
  · obtain ⟨R, hR⟩ := h.inv
    obtain ⟨-, c, -, -, rfl⟩ := h
    exact ⟨R, _, hR, rfl, rfl⟩
  · obtain ⟨R, W, h, hW, hq⟩ := hI
    obtain ⟨R', W', h', hE⟩ := h.step hst
    exact ⟨R', W', h', hE.exact hok hW, Effect.amount h h' hE hq⟩

/-! ## The terminator's loop -/

/-- A count with an empty list stays as it is: the loop does not end. -/
theorem terminatorLoop_of_null (fuel : ℕ) (c : Sched) {r : Queue} (hf : r.firstTask = NULL)
    (hr : 0 < r.amountWaiting) : terminatorLoop fuel c r = none := by
  induction fuel generalizing c with
  | zero => unfold terminatorLoop; rw [if_pos hr]
  | succ fuel ih =>
    have hq : (signalQueue c r).2 = r := by
      unfold signalQueue
      rw [if_neg (by omega)]
      dsimp only
      unfold queueWake
      rw [if_neg (by simpa using hf)]
    unfold terminatorLoop
    rw [if_pos hr, hq, ih]
    rfl

/-- The first iteration wakes the first task and empties the list. -/
theorem signalQueue_first {c : Sched} {r : Queue} (hr : 0 < r.amountWaiting) (hf : r.firstTask ≠ NULL)
    (hn : (unblockTask (lockTaskSwitches c) r.firstTask).next r.firstTask = NULL) :
    (signalQueue c r).2 = ⟨sub64 r.amountWaiting 1, NULL, NULL⟩ := by
  unfold signalQueue
  rw [if_neg (by omega)]
  dsimp only
  rw [queueWake_eq hf hn]

/-- **The terminator's loop** ends after `amount_waiting` iterations exactly when that is one at
most. -/
theorem terminatorLoop_iff {c : Sched} {r : Queue} (hlt : r.amountWaiting < 2 ^ 64)
    (hf : 0 < r.amountWaiting → r.firstTask ≠ NULL ∧
      (unblockTask (lockTaskSwitches c) r.firstTask).next r.firstTask = NULL) :
    (∃ fuel, terminatorLoop fuel c r = some r.amountWaiting) ↔ r.amountWaiting ≤ 1 := by
  by_cases h0 : 0 < r.amountWaiting
  · obtain ⟨hf1, hf2⟩ := hf h0
    have hq := signalQueue_first h0 hf1 hf2
    have hsub : sub64 r.amountWaiting 1 = r.amountWaiting - 1 := sub64_of_le h0 hlt
    constructor
    · rintro ⟨fuel, hfuel⟩
      cases fuel with
      | zero =>
        unfold terminatorLoop at hfuel
        rw [if_pos h0] at hfuel
        cases hfuel
      | succ fuel =>
        -- after one signal the list is empty and the counter is not: the loop runs forever
        by_contra hgt
        have hpos : 0 < sub64 r.amountWaiting 1 := by rw [hsub]; omega
        have hnone : ∀ c, terminatorLoop fuel c ⟨sub64 r.amountWaiting 1, NULL, NULL⟩ = none :=
          fun c => terminatorLoop_of_null fuel c (r := ⟨sub64 r.amountWaiting 1, NULL, NULL⟩) rfl hpos
        unfold terminatorLoop at hfuel
        rw [if_pos h0, hq, hnone] at hfuel
        cases hfuel
    · intro hle
      refine ⟨1, ?_⟩
      have h1 : r.amountWaiting = 1 := by omega
      unfold terminatorLoop
      rw [if_pos h0, hq]
      unfold terminatorLoop
      rw [hsub, h1]
      rfl
  · constructor
    · intro _; omega
    · intro _
      refine ⟨0, ?_⟩
      unfold terminatorLoop
      rw [if_neg h0]
      congr 1
      omega

/-! ## Waiting -/

/-- **Waiting for a queue.** In a run in which no signal of `q` finds two tasks waiting:
`amount_waiting` is the number of the tasks that wait; the list from `first_task` to
`last_task` has them, in the order in which they came, and they are blocked; a signal
wakes the first of them and no other, and leaves the others waiting, but the list has
them only if there are none. The loop of a terminator that does not wait for `q` itself
ends after `amount_waiting` iterations exactly when that is one at most. -/
theorem queue_waiters (q : ℕ) (hs : Reach (SyncInit m) Kernel.step (OneWaiter (.queue q)) k) :
    (k.queue q).amountWaiting = (k.waiting (.queue q)).length ∧
    (∃ e, Fifo k.sched.next NULL (k.queue q).firstTask (k.queue q).lastTask (k.waiting (.queue q)) e) ∧
    (∀ t ∈ k.waiting (.queue q), t ≠ k.cur → k.sched.state t = .block) ∧
    (∀ k' f L, k.pc k.cur = .call .body (.signal q) → k.waiting (.queue q) = f :: L →
      k.step .run = some k' →
      (∀ t, k'.sched.state t = if t = f then .ready else k.sched.state t) ∧
        k'.waiting (.queue q) = L ∧
        ((∃ e, Fifo k'.sched.next NULL (k'.queue q).firstTask (k'.queue q).lastTask L e) ↔ L = [])) ∧
    (k.cur ∉ k.waiting (.queue q) →
      ((∃ fuel, terminatorLoop fuel k.sched (k.queue q) = some (k.queue q).amountWaiting) ↔
        (k.queue q).amountWaiting ≤ 1)) := by
  obtain ⟨R, W, h, hW, hq⟩ := reach_amount hs
  obtain ⟨e, he⟩ := h.lists.list (.queue q)
  rw [hW] at he
  have hblk : ∀ t ∈ k.waiting (.queue q), t ≠ k.cur → k.sched.state t = .block :=
    fun t ht htc => h.blocked_of_ne ht htc
  have hfirst : ∀ f L, k.waiting (.queue q) = f :: L →
      (k.queue q).firstTask = f ∧ f ∈ k.waiting (.queue q) ∧ f ≠ NULL := by
    intro f L hL
    have hmem : f ∈ k.waiting (.queue q) := by rw [hL]; simp
    have hf := he.first_eq
    rw [hL] at hf
    exact ⟨hf, hmem, h.core.sched.ne_null (h.lists.mem _ f hmem)⟩
  refine ⟨hq, ⟨e, he⟩, hblk, ?_, fun hcw => ?_⟩
  · intro k' f L hpc hL hst
    obtain ⟨hf, hmem, hf0⟩ := hfirst f L hL
    have hne : f ≠ k.cur := fun hc => h.sigs q k.cur (Or.inr hpc) (hc ▸ hmem)
    have hA := h.core.sched.unblock (h.lists.mem _ f hmem) (hblk f hmem hne) hne
    have hst' : k.body (.signal q) = some k' := by
      have : k.advance (k.pc k.cur) = some k' := hst
      rwa [hpc] at this
    -- `unblock_task` has cleared the link by the time `signal_queue` reads it
    have hwk : queueWake k.sched (k.queue q) =
        (unblockTask k.sched f, ⟨sub64 (k.queue q).amountWaiting 1, NULL, NULL⟩) := by
      rw [queueWake_eq (by rw [hf]; exact hf0) (by rw [hf]; exact hA.next), hf]
    simp only [Kernel.body, hwk, hf] at hst'
    obtain rfl := Option.some.inj hst'
    refine ⟨hA.state, ?_, ?_⟩
    · simp only [Kernel.setPc, Kernel.leave, Kernel.setQueue, Function.update_self, hL,
        List.erase_cons_head]
    · simp only [Kernel.setPc, Kernel.leave, Kernel.setQueue, Function.update_self]
      constructor
      · rintro ⟨e, he⟩
        exact he.first_eq_null_iff.1 rfl
      · rintro rfl
        exact ⟨NULL, Fifo.nil _ _ _⟩
  · refine terminatorLoop_iff (by rw [hq]; exact h.length_waiting _) fun h0 => ?_
    rw [hq] at h0
    obtain ⟨f, L, hL⟩ := List.exists_cons_of_length_pos h0
    obtain ⟨hf, hmem, hf0⟩ := hfirst f L hL
    have hne : f ≠ k.cur := fun hc => hcw (hc ▸ hmem)
    have hi : SchedInv (lockTaskSwitches k.sched) k.idle k.tasks R :=
      h.core.sched.congr rfl rfl rfl (fun _ => rfl) fun _ _ => rfl
    rw [hf]
    exact ⟨hf0, (hi.unblock (h.lists.mem _ f hmem) (hblk f hmem hne) hne).next⟩

/-- The boot task waits for a queue, and the next task signals it. -/
theorem queue_waiters_one : ∃ k, Reach (SyncInit fun _ => 1) Kernel.step (OneWaiter (.queue 7)) k ∧
    k.waiting (.queue 7) = [1] ∧ (k.queue 7).amountWaiting = 1 ∧ k.sched.state 1 = .block ∧
      ∃ fuel, terminatorLoop fuel k.sched (k.queue 7) = some 1 := by
  have hrun : (run Kernel.step (fun k e => decide (OneWaiter (.queue 7) k e)) bootedKernel
      ([.create 12 4 13 1, .call (.wait 7)] ++ List.replicate 6 .run)).map
      (fun k => (k.waiting (.queue 7), k.cur)) = some ([1], 4) := by decide +kernel
  obtain ⟨k, hk, hk'⟩ := Option.map_eq_some_iff.1 hrun
  obtain ⟨hw, hc⟩ := Prod.mk.inj hk'
  have hs := (Reach.init syncInit_booted).run (fun _ _ h => of_decide_eq_true h) _ hk
  obtain ⟨h1, -, h3, -, h5⟩ := queue_waiters 7 hs
  rw [hw] at h1 h3 h5
  rw [hc] at h3 h5
  rw [List.length_singleton] at h1
  have hloop := (h5 (by decide)).2 (by rw [h1])
  rw [h1] at hloop
  exact ⟨k, hs, hw, h1, h3 1 (by simp) (by decide), hloop⟩

/-- Two tasks wait for a queue, and a third one signals it. -/
def lostSleeper : List Event :=
  [.create 12 4 13 1, .create 12 5 14 1, .call (.wait 7)] ++ List.replicate 6 .run ++ [.call (.wait 7)] ++
    List.replicate 6 .run ++ [.call (.signal 7), .run, .run]

/-- **A waiter is lost**: it waits for the queue and is counted, and the list is empty; the
terminator's loop over this queue does not end. -/
theorem queue_waiter_lost : ∃ k, Reach (SyncInit fun _ => 1) Kernel.step Any k ∧
    k.waiting (.queue 7) = [5] ∧ k.sched.state 5 = .block ∧ (k.queue 7).amountWaiting = 1 ∧
      ¬ (∃ e, Fifo k.sched.next NULL (k.queue 7).firstTask (k.queue 7).lastTask
        (k.waiting (.queue 7)) e) ∧
      ∀ fuel, terminatorLoop fuel k.sched (k.queue 7) = none := by
  have hrun : (run Kernel.step (fun _ _ => true) bootedKernel lostSleeper).map
      (fun k => (k.waiting (.queue 7), k.sched.state 5, k.queue 7)) = some ([5], .block, ⟨1, NULL, NULL⟩) := by
    decide +kernel
  obtain ⟨k, hk, hk'⟩ := Option.map_eq_some_iff.1 hrun
  obtain ⟨hw, hk'⟩ := Prod.mk.inj hk'
  obtain ⟨hst, hq⟩ := Prod.mk.inj hk'
  refine ⟨k, (Reach.init syncInit_booted).run (fun _ _ _ => trivial) _ hk, hw, hst, by rw [hq], ?_, ?_⟩
  · rintro ⟨e, he⟩
    have := he.first_eq_null_iff.1 (by rw [hq])
    rw [hw] at this
    cases this
  · exact fun fuel => terminatorLoop_of_null fuel _ (by rw [hq]) (by rw [hq]; decide)

end Nettapus
