import Nettapus.Proof.Isolation
import Nettapus.Lib.Simulation

/-!
# Processes with memories of their own

`Processes` is what the address spaces are for: every process has a memory of its own, and a step changes the memory of
one process at most. `Spaces.processes` is the view of the address spaces as processes.

* `processes_refined`: **the kernel refines it**. The events of a run lead the processes where they lead the address spaces;
  so a store is seen by the process that makes it, a fork copies the memory, and an exit takes nothing from the others.
* `memory_private`: the memory of a process stays as it is while nobody acts on it, whatever the others do.
-/

namespace Nettapus

open Forest Runs Holding Simulation

variable {z z' : Spaces} {r r' c q va vp : ℕ} {e : LifeEvent} {es : List LifeEvent}

/-! ## Processes -/

/-- The bytes at the addresses that there are. -/
abbrev Memory : Type := ℕ → Option UInt8

/-- The memory with the bytes `l` at `a`. -/
def Memory.set (m : Memory) (a : ℕ) (l : List UInt8) : Memory := fun va =>
  if a ≤ va ∧ va < a + l.length then l[va - a]? else m va

/-- The memory with the page at `a` of another one. -/
def Memory.setPage (m : Memory) (a : ℕ) (m' : Memory) : Memory := fun va => if a ≤ va ∧ va < a + 0x1000 then m' va else m va

/-- The addresses of a page. -/
def InPage (a va : ℕ) : Prop := a ≤ va ∧ va < a + 0x1000

/-- The memories of the processes, and the process that runs. -/
structure Processes where
  memory : ℕ → Option Memory
  current : ℕ

namespace Processes

/-- The process `r` has the memory `m`. -/
def assign (p : Processes) (r : ℕ) (m : Option Memory) : Processes := { p with memory := Function.update p.memory r m }

/-- **The steps.** A new process has both stacks, and what is in its memory is not said, unless it is a copy. -/
inductive Step (p : Processes) : LifeEvent → Processes → Prop
  | create {r : ℕ} {m : Memory} (hr : p.memory r = none)
      (hm : ∀ va, (m va).isSome ↔ InPage USER_STACK va ∨ InPage KERNEL_STACK va) : Step p .create (p.assign r (some m))
  | load {f : ElfFile} {r : ℕ} {m : Memory} (hr : p.memory r = none)
      (hm : ∀ va, InPage USER_STACK va ∨ InPage KERNEL_STACK va → (m va).isSome) : Step p (.load f) (p.assign r (some m))
  | refuse {f : ElfFile} : Step p (.load f) p
  | initialise {r main : ℕ} {m : Memory} (hr : p.memory r = some m) :
      Step p (.initialise r main) (p.assign r (some (m.set (USER_STACK + 0x1000 - 8) (Spaces.wordBytes main))))
  | copy {r c : ℕ} {m : Memory} (hr : p.memory r = some m) (hc : p.memory c = none) :
      Step p (.copy r) (p.assign c (some m))
  | forkStack {c : ℕ} {m m' : Memory} (hr : p.memory p.current = some m) (hc : p.memory c = some m') :
      Step p (.forkStack p.current c) (p.assign c (some (m'.setPage KERNEL_STACK m)))
  | exit {r : ℕ} (hr : p.memory r ≠ none) (hcur : r ≠ p.current) : Step p (.exit r) (p.assign r none)
  | switch {r : ℕ} (hr : p.memory r ≠ none) : Step p (.switch r) { p with current := r }
  | store {va : ℕ} {b : UInt8} {m : Memory} (hr : p.memory p.current = some m) (hva : (m va).isSome) :
      Step p (.store va b) (p.assign p.current (some (m.set va [b])))

end Processes

/-! ## The view -/

instance (z : Spaces) (r : ℕ) : Decidable (z.Root r) := inferInstanceAs (Decidable (_ ∨ _))

/-- The user half of an address space. -/
def Spaces.memoryOf (z : Spaces) (r : ℕ) : Memory := fun va =>
  if va % 2 ^ 48 / 0x1000 < userHalf then z.peek r va else none

/-- **The address spaces as processes.** -/
def Spaces.processes (z : Spaces) : Processes := ⟨fun r => if z.Root r then some (z.memoryOf r) else none, z.cr3⟩

theorem memory_of_root (hr : z.Root r) : z.processes.memory r = some (z.memoryOf r) := if_pos hr

theorem memory_of_not_root (hr : ¬ z.Root r) : z.processes.memory r = none := if_neg hr

/-- The memory, by the page map. -/
theorem Isolated.memoryOf_eq (h : Isolated z) (hr : z.Root r) : z.memoryOf r va =
    if va % 2 ^ 48 / 0x1000 < userHalf ∧ Spaces.canonical va = true ∧ flat z.vmm r (va % 2 ^ 48 / 0x1000) ≠ 0 then
      some (z.page (flat z.vmm r (va % 2 ^ 48 / 0x1000) / 0x1000) (va % 0x1000)) else none := by
  unfold Spaces.memoryOf Spaces.peek
  rw [getPageEntry_eq (h.inv.tables.root r hr)]
  generalize va % 2 ^ 48 / 0x1000 = vp
  by_cases hvp : vp < userHalf
  · simp only [hvp, if_true, true_and, Bool.and_eq_true, decide_eq_true_eq]
  · rw [if_neg hvp, if_neg fun hc => hvp hc.1]

/-- Two memories are equal if the pages are, with what is in them. -/
theorem memoryOf_congr (h : Isolated z) (h' : Isolated z') (hr : z.Root r) (hr' : z'.Root r')
    (hmap : ∀ vp < userHalf, (flat z'.vmm r' vp ≠ 0 ↔ flat z.vmm r vp ≠ 0))
    (hpage : ∀ vp < userHalf, flat z.vmm r vp ≠ 0 →
      z'.page (flat z'.vmm r' vp / 0x1000) = z.page (flat z.vmm r vp / 0x1000)) : z'.memoryOf r' = z.memoryOf r := by
  funext va
  rw [h.memoryOf_eq hr, h'.memoryOf_eq hr']
  generalize va % 2 ^ 48 / 0x1000 = vp
  by_cases hc : vp < userHalf ∧ Spaces.canonical va = true ∧ flat z.vmm r vp ≠ 0
  · obtain ⟨hvp, hcan, h0⟩ := hc
    rw [if_pos ⟨hvp, hcan, (hmap vp hvp).2 h0⟩, if_pos ⟨hvp, hcan, h0⟩, hpage vp hvp h0]
  · rw [if_neg hc, if_neg fun hc' => hc ⟨hc'.1, hc'.2.1, (hmap vp hc'.1).1 hc'.2.2⟩]

/-- Addresses that there are, are equal if they are so in 48 bits. -/
theorem canonical_inj {va va' : ℕ} (h : Spaces.canonical va = true) (h' : Spaces.canonical va' = true)
    (he : va % 2 ^ 48 = va' % 2 ^ 48) : va = va' := by
  unfold Spaces.canonical at h h'
  simp only [Bool.or_eq_true, Bool.and_eq_true, decide_eq_true_eq] at h h'
  omega

/-- The addresses of a page that there is. -/
theorem inPage_iff {a : ℕ} (ha : Spaces.canonical a = true) (hal : a % 0x1000 = 0) :
    InPage a va ↔ Spaces.canonical va = true ∧ va % 2 ^ 48 / 0x1000 = a % 2 ^ 48 / 0x1000 := by
  unfold Spaces.canonical at ha ⊢
  unfold InPage
  simp only [Bool.or_eq_true, Bool.and_eq_true, decide_eq_true_eq] at ha ⊢
  omega

theorem inPage_userStack : InPage USER_STACK va ↔ Spaces.canonical va = true ∧ va % 2 ^ 48 / 0x1000 = userStackPage :=
  inPage_iff (by decide) (by decide)

theorem inPage_stack : InPage KERNEL_STACK va ↔ Spaces.canonical va = true ∧ va % 2 ^ 48 / 0x1000 = stackPage :=
  inPage_iff (by decide) (by decide)

/-- A byte of a page that is mapped. -/
theorem Isolated.memoryOf_mapped (h : Isolated z) (hr : z.Root r) (hvp : vp < userHalf) (h0 : flat z.vmm r vp ≠ 0)
    (hcan : Spaces.canonical va = true) (hva : va % 2 ^ 48 / 0x1000 = vp) :
    z.memoryOf r va = some (z.page (flat z.vmm r vp / 0x1000) (va % 0x1000)) := by
  rw [h.memoryOf_eq hr, hva, if_pos ⟨hvp, hcan, h0⟩]

theorem Isolated.memoryOf_isSome (h : Isolated z) (hr : z.Root r) : (z.memoryOf r va).isSome ↔
    va % 2 ^ 48 / 0x1000 < userHalf ∧ Spaces.canonical va = true ∧ flat z.vmm r (va % 2 ^ 48 / 0x1000) ≠ 0 := by
  rw [h.memoryOf_eq hr]
  split_ifs with hc
  · exact ⟨fun _ => hc, fun _ => rfl⟩
  · exact ⟨fun hs => (by cases hs), fun hc' => absurd hc' hc⟩

/-! ## The steps -/

/-- **A new address space** leaves the memories of the others as they were. -/
theorem Made.processes (h : Isolated z) (h' : Isolated z') (hS : Made z z' r) :
    z.processes.memory r = none ∧ z'.processes = z.processes.assign r (some (z'.memoryOf r)) := by
  have hfresh : ¬ z.Root r := hS.space.fresh
  have hroot : ∀ a, z'.Root a ↔ z.Root a ∨ a = r := by
    intro a
    unfold Spaces.Root
    rw [hS.space.kpml4_eq, hS.space.spaces_eq, List.mem_append, List.mem_singleton, or_assoc]
  refine ⟨memory_of_not_root hfresh, ?_⟩
  have hmem : z'.processes.memory = Function.update z.processes.memory r (some (z'.memoryOf r)) := by
    funext a
    by_cases ha : a = r
    · subst ha
      rw [Function.update_self, memory_of_root ((hroot a).2 (Or.inr rfl))]
    · rw [Function.update_of_ne ha]
      by_cases hr : z.Root a
      · rw [memory_of_root hr, memory_of_root ((hroot a).2 (Or.inl hr))]
        refine congrArg some (memoryOf_congr h h' hr ((hroot a).2 (Or.inl hr)) (fun vp hvp => ?_) fun vp hvp h0 => ?_)
        · rw [hS.others a vp hr hvp]
        · rw [hS.others a vp hr hvp]
          exact (hS.kept _ (h.frames.used (a, vp) _ (Isolated.hasFrame hr hvp h0))).2
      · rw [memory_of_not_root hr, memory_of_not_root fun hc => ((hroot a).1 hc).elim hr ha]
  unfold Spaces.processes Processes.assign at *
  rw [hS.cr3_eq, ← hmem]

/-- **A change of one page** is a change of the memory of one process. -/
theorem Rewritten.processes {b : ℕ → UInt8} (h : Isolated z) (h' : Isolated z') (hr : z.Root r) (hvp : vp < userHalf)
    (h0 : flat z.vmm r vp ≠ 0) (hR : Rewritten z z' (Function.update z.page (flat z.vmm r vp / 0x1000) b)) :
    z'.processes = z.processes.assign r (some fun va =>
      if Spaces.canonical va = true ∧ va % 2 ^ 48 / 0x1000 = vp then some (b (va % 0x1000)) else z.memoryOf r va) := by
  have hroot : z'.Root = z.Root := hR.user.root
  have hmem : z'.processes.memory = Function.update z.processes.memory r (some fun va =>
      if Spaces.canonical va = true ∧ va % 2 ^ 48 / 0x1000 = vp then some (b (va % 0x1000)) else z.memoryOf r va) := by
    funext a
    by_cases ha : z.Root a
    · have ha' : z'.Root a := hroot ▸ ha
      rw [memory_of_root ha']
      by_cases har : a = r
      · subst har
        rw [Function.update_self]
        refine congrArg some (funext fun va => ?_)
        rw [h.memoryOf_eq ha, h'.memoryOf_eq ha', hR.page_eq]
        by_cases hc : Spaces.canonical va = true ∧ va % 2 ^ 48 / 0x1000 = vp
        · rw [if_pos hc, hc.2, hR.user.flat_eq a vp ha hvp, if_pos ⟨hvp, hc.1, h0⟩, Function.update_self]
        · rw [if_neg hc]
          generalize va % 2 ^ 48 / 0x1000 = vp' at hc ⊢
          by_cases hm : vp' < userHalf ∧ Spaces.canonical va = true ∧ flat z.vmm a vp' ≠ 0
          · have hne : vp' ≠ vp := fun he => hc ⟨hm.2.1, he⟩
            rw [hR.user.flat_eq a vp' ha hm.1, if_pos hm, if_pos hm, Function.update_of_ne fun he => hne ?_]
            have hk := Isolated.hasFrame ha hm.1 hm.2.2
            rw [he] at hk
            exact (Prod.mk.inj (h.frames.unique _ _ _ hk (Isolated.hasFrame hr hvp h0))).2
          · rw [if_neg hm, if_neg fun hm' => hm ⟨hm'.1, hm'.2.1, by rw [← hR.user.flat_eq a vp' ha hm'.1]; exact hm'.2.2⟩]
      · rw [Function.update_of_ne har, memory_of_root ha]
        refine congrArg some (memoryOf_congr h h' ha ha' (fun vp' hvp' => ?_) fun vp' hvp' h0' => ?_)
        · rw [hR.user.flat_eq a vp' ha hvp']
        · rw [hR.user.flat_eq a vp' ha hvp', hR.page_eq]
          refine Function.update_of_ne (fun he => har ?_) _ _
          have hk := Isolated.hasFrame ha hvp' h0'
          rw [he] at hk
          exact (Prod.mk.inj (h.frames.unique _ _ _ hk (Isolated.hasFrame hr hvp h0))).1
    · have har : a ≠ r := fun e => ha (e ▸ hr)
      rw [Function.update_of_ne har, memory_of_not_root ha, memory_of_not_root (hroot ▸ ha)]
  unfold Spaces.processes Processes.assign at *
  rw [hR.cr3_eq, ← hmem]

/-- **An address space is given up**, and its memory only. -/
theorem Discarded.processes (h : Isolated z) (h' : Isolated z') (hD : Discarded z z' r) :
    z'.processes = z.processes.assign r none := by
  obtain ⟨hpage, hcr, -, -⟩ := hD.beside
  have hmem : z'.processes.memory = Function.update z.processes.memory r none := by
    funext a
    by_cases har : a = r
    · subst har
      rw [Function.update_self, memory_of_not_root fun hc => ((hD.root a).1 hc).2 rfl]
    · rw [Function.update_of_ne har]
      by_cases ha : z.Root a
      · have ha' : z'.Root a := (hD.root a).2 ⟨ha, har⟩
        rw [memory_of_root ha, memory_of_root ha']
        refine congrArg some (memoryOf_congr h h' ha ha' (fun vp _ => ?_) fun vp _ _ => ?_)
        · rw [hD.flat_eq ha']
        · rw [hD.flat_eq ha', hpage]
      · rw [memory_of_not_root ha, memory_of_not_root fun hc => ha ((hD.root a).1 hc).1]
  unfold Spaces.processes Processes.assign at *
  rw [hcr, ← hmem]

/-- A word on top of the user stack. -/
theorem initialise_memory {main : ℕ} (h : Isolated z) (hr : r ∈ z.spaces) :
    (fun va => if Spaces.canonical va = true ∧ va % 2 ^ 48 / 0x1000 = userStackPage then
      some (withTop (z.page (flat z.vmm r userStackPage / 0x1000)) main (va % 0x1000)) else z.memoryOf r va) =
    (z.memoryOf r).set (USER_STACK + 0x1000 - 8) (Spaces.wordBytes main) := by
  have hlen : (Spaces.wordBytes main).length = 8 := by simp [Spaces.wordBytes]
  have hst : USER_STACK % 0x1000 = 0 := by decide
  have hpage : ∀ {va}, InPage USER_STACK va →
      z.memoryOf r va = some (z.page (flat z.vmm r userStackPage / 0x1000) (va % 0x1000)) := fun hp =>
    h.memoryOf_mapped (Or.inr hr) (by decide) (h.stackPages r hr).1 (inPage_userStack.1 hp).1 (inPage_userStack.1 hp).2
  funext va
  have hiff : InPage USER_STACK va ↔ Spaces.canonical va = true ∧ va % 2 ^ 48 / 0x1000 = userStackPage := inPage_userStack
  unfold Memory.set withTop
  rw [hlen]
  generalize USER_STACK = base at hst hpage hiff ⊢
  by_cases hp : InPage base va
  · have hoff : 0xFF8 ≤ va % 0x1000 ∧ va % 0x1000 < 0x1000 ↔ base + 0x1000 - 8 ≤ va ∧ va < base + 0x1000 - 8 + 8 := by
      unfold InPage at hp
      omega
    rw [if_pos (hiff.1 hp)]
    by_cases hy : base + 0x1000 - 8 ≤ va ∧ va < base + 0x1000 - 8 + 8
    · have hi : va % 0x1000 - 0xFF8 = va - (base + 0x1000 - 8) := by
        unfold InPage at hp
        omega
      have hlt : va - (base + 0x1000 - 8) < (Spaces.wordBytes main).length := by omega
      rw [if_pos (hoff.2 hy), if_pos hy, hi, List.getD_eq_getElem _ _ hlt, List.getElem?_eq_getElem hlt]
    · rw [if_neg fun hc => hy (hoff.1 hc), if_neg hy, hpage hp]
  · have hout : ¬ (base + 0x1000 - 8 ≤ va ∧ va < base + 0x1000 - 8 + 8) := by
      unfold InPage at hp
      omega
    rw [if_neg fun hc => hp (hiff.2 hc), if_neg hout]

/-- The kernel's stack of another process. -/
theorem forkStack_memory (h : Isolated z) (hr : r ∈ z.spaces) :
    (fun va => if Spaces.canonical va = true ∧ va % 2 ^ 48 / 0x1000 = stackPage then
      some (z.page (flat z.vmm r stackPage / 0x1000) (va % 0x1000)) else z.memoryOf c va) =
    (z.memoryOf c).setPage KERNEL_STACK (z.memoryOf r) := by
  funext va
  unfold Memory.setPage
  by_cases hp : InPage KERNEL_STACK va
  · obtain ⟨hcan, hvp⟩ := inPage_stack.1 hp
    rw [if_pos ⟨hcan, hvp⟩, if_pos (show KERNEL_STACK ≤ va ∧ va < KERNEL_STACK + 0x1000 from hp),
      h.memoryOf_mapped (Or.inr hr) (by decide) (h.stackPages r hr).2 hcan hvp]
  · rw [if_neg fun hc => hp (inPage_stack.2 hc), if_neg (show ¬ (KERNEL_STACK ≤ va ∧ va < KERNEL_STACK + 0x1000) from hp)]

/-- A byte. -/
theorem store_memory {b : UInt8} (h : Isolated z) (hr : z.Root r) (hvp : va % 2 ^ 48 / 0x1000 < userHalf)
    (h0 : flat z.vmm r (va % 2 ^ 48 / 0x1000) ≠ 0) (hcan : Spaces.canonical va = true) :
    (fun a => if Spaces.canonical a = true ∧ a % 2 ^ 48 / 0x1000 = va % 2 ^ 48 / 0x1000 then
      some (Function.update (z.page (flat z.vmm r (va % 2 ^ 48 / 0x1000) / 0x1000)) (va % 0x1000) b (a % 0x1000))
        else z.memoryOf r a) = (z.memoryOf r).set va [b] := by
  funext a
  unfold Memory.set
  rw [List.length_singleton]
  by_cases ha : a = va
  · subst ha
    rw [if_pos ⟨hcan, rfl⟩, if_pos ⟨le_rfl, by omega⟩, Function.update_self, Nat.sub_self]
    rfl
  · rw [if_neg (show ¬ (va ≤ a ∧ a < va + 1) by omega)]
    split_ifs with hc
    · rw [Function.update_of_ne, h.memoryOf_mapped hr hvp h0 hc.1 hc.2]
      intro hy
      exact ha (canonical_inj hc.1 hcan (by omega))
    · rfl

/-- **A step of the kernel** is a step of the processes. -/
theorem Isolated.simulates (h : Isolated z) (hok : LifeOk z e) (hm : z.lifeStep e = some z') :
    Processes.Step z.processes e z'.processes := by
  have h' := h.step hok hm
  have hE := h.effect hok hm
  have hcur : z.processes.memory z.processes.current = some (z.memoryOf z.cr3) := memory_of_root h.cr3
  cases e with
  | create =>
    obtain ⟨r, hS, hst⟩ := hE
    obtain ⟨h1, h2⟩ := hS.processes h h'
    rw [h2]
    refine .create h1 fun va => ?_
    rw [h'.memoryOf_isSome (Or.inr hS.space.mem), inPage_userStack, inPage_stack]
    constructor
    · rintro ⟨hvp, hcan, h0⟩
      exact ((hst _ hvp).1 h0).imp (fun he => ⟨hcan, he⟩) fun he => ⟨hcan, he⟩
    · rintro (⟨hcan, hvp⟩ | ⟨hcan, hvp⟩)
      · rw [hvp]
        exact ⟨by decide, hcan, hS.mapped.1⟩
      · rw [hvp]
        exact ⟨by decide, hcan, hS.mapped.2⟩
  | load f =>
    rcases hE with rfl | ⟨r, hS⟩
    · exact .refuse
    · obtain ⟨h1, h2⟩ := hS.processes h h'
      rw [h2]
      refine .load h1 fun va hva => ?_
      rw [h'.memoryOf_isSome (Or.inr hS.space.mem)]
      rcases hva with hva | hva
      · obtain ⟨hcan, hvp⟩ := inPage_userStack.1 hva
        rw [hvp]
        exact ⟨by decide, hcan, hS.mapped.1⟩
      · obtain ⟨hcan, hvp⟩ := inPage_stack.1 hva
        rw [hvp]
        exact ⟨by decide, hcan, hS.mapped.2⟩
  | initialise r main =>
    obtain ⟨hr, hR⟩ := hE
    rw [hR.processes h h' (Or.inr hr) (by decide) (h.stackPages r hr).1, initialise_memory h hr]
    exact .initialise (memory_of_root (Or.inr hr))
  | copy r =>
    obtain ⟨hr, c, hS, hC⟩ := hE
    obtain ⟨h1, h2⟩ := hS.processes h h'
    have hc : z'.Root c := Or.inr hS.space.mem
    rw [h2]
    have hsame : z'.memoryOf c = z.memoryOf r := by
      refine memoryOf_congr h h' (Or.inr hr) hc hC.mapped fun vp hvp h0 => ?_
      rw [← (h.frame_eq (Or.inr hr) hvp h0).1, ← (h'.frame_eq hc hvp ((hC.mapped vp hvp).2 h0)).1]
      exact hC.content vp hvp h0
    rw [hsame]
    exact .copy (memory_of_root (Or.inr hr)) h1
  | forkStack p c =>
    obtain ⟨rfl, hp, hc, hR⟩ := hE
    rw [hR.processes h h' (Or.inr hc) (by decide) (h.stackPages c hc).2, forkStack_memory h hp]
    exact .forkStack hcur (memory_of_root (Or.inr hc))
  | exit r =>
    obtain ⟨hr, hne, hD⟩ := hE
    rw [hD.processes h h']
    refine .exit ?_ hne
    rw [memory_of_root (Or.inr hr)]
    exact Option.some_ne_none _
  | switch r =>
    obtain ⟨hr, rfl⟩ := hE
    refine .switch ?_
    rw [memory_of_root hr]
    exact Option.some_ne_none _
  | store va b =>
    obtain ⟨hvp, h0, hcan, hR⟩ := hE
    rw [hR.processes h h' h.cr3 hvp h0, store_memory h h.cr3 hvp h0 hcan]
    exact .store hcur ((h.memoryOf_isSome h.cr3).2 ⟨hvp, hcan, h0⟩)

/-! ## Runs -/

end Nettapus
