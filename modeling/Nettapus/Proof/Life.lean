import Nettapus.Proof.Frames

/-!
# Address spaces over whole runs

The runs of `Spaces.lifeStep`: address spaces are made, filled, copied and given up in any order, tasks are switched, and
user code stores where the processor's walk allows it.

* `Isolated`: **the invariant**. A frame is behind one page of one address space, and in use; the entries lead the
  processor where the children lead the kernel.
* `LifeOk`: what a call needs. There is memory, and the segments of a file fit where they come to be; user code runs while the
  slots of the page heap that are in use are mapped.
* `LifeEffect`: what an event does, in a state with the invariant (`Isolated.effect`).
* `LifeRun`: the runs, in which the invariant holds (`LifeRun.isolated`). `SpaceRule.lifeStep` is the rule for what else they keep.
-/

namespace Nettapus

open Forest Runs Holding

variable {z z' z₀ : Spaces} {r r' n vp q : ℕ} {k : ℕ × ℕ} {e : LifeEvent}

/-! ## The invariant -/

/-- The page `k.2` in the user half of `k.1` has the frame `q`. -/
def Spaces.HasFrame (z : Spaces) (k : ℕ × ℕ) (q : ℕ) : Prop :=
  z.Root k.1 ∧ k.2 < userHalf ∧ flat z.vmm k.1 k.2 ≠ 0 ∧ flat z.vmm k.1 k.2 / 0x1000 = q

/-- Both stacks of an address space are mapped. -/
def StacksMapped (z : Spaces) (r : ℕ) : Prop := flat z.vmm r userStackPage ≠ 0 ∧ flat z.vmm r stackPage ≠ 0

/-- **The invariant of a run.** -/
structure Isolated (z : Spaces) : Prop where
  inv : SpaceInv z
  laid : Laid z.Root z.vmm
  cr3 : z.Root z.cr3
  kernel : z.kpml4 ∉ z.spaces
  limit : BelowLimit z.mem
  pages : ∀ r vp, z.Root r → vp < userHalf → flat z.vmm r vp ≠ 0 →
    ∃ q < pageLimit, flat z.vmm r vp = q * 0x1000 + 7 ∨ flat z.vmm r vp = q * 0x1000 + 3
  frames : Exclusive z.HasFrame z.Used
  stackPages : ∀ r ∈ z.spaces, StacksMapped z r

/-- A file that can be loaded: the driver serves it, the LOAD segments that `load_elf` comes to are in the user half, and
there they fit into the window and into memory. -/
def LoadOk (z : Spaces) (f : ElfFile) : Prop :=
  2 ≤ (freePages z.mem).card ∧ ∃ node content, Holds f.disk node content ∧ Bounded f.disk node ∧ AtPos f.fds f.fd node 0 ∧
    ∀ r i v e, ElfVisits f.disk f.special f.fd ⟨z, f.fds, 0⟩ r i v e →
      e.firstPage + Spaces.pageCount e.toElfPhdrEntry ≤ userHalf ∧
        SegmentInWindow content.length (64 + PHDR_SIZE * (i + 1)) v r e

/-- What an event needs. -/
def LifeOk (z : Spaces) : LifeEvent → Prop
  | .create => 2 ≤ (freePages z.mem).card
  | .load f => LoadOk z f
  | .copy pml4t => (rest z pml4t 0).card ≤ (freePages z.mem).card
  | .store _ _ => SlotsMapped z.vmm
  | _ => True

/-- The pages of the user half, by their entries. -/
theorem Isolated.frame_eq (h : Isolated z) (hr : z.Root r) (hvp : vp < userHalf) (h0 : flat z.vmm r vp ≠ 0) :
    frame (flat z.vmm r vp) = flat z.vmm r vp / 0x1000 ∧ flat z.vmm r vp % 2 ^ 52 = flat z.vmm r vp ∧
      flat z.vmm r vp % 2 = 1 ∧ flat z.vmm r vp / 2 % 2 = 1 := by
  obtain ⟨q, hq, he⟩ := h.pages r vp hr hvp h0
  unfold pageLimit at hq
  unfold frame
  omega

theorem Isolated.hasFrame (hr : z.Root r) (hvp : vp < userHalf) (h0 : flat z.vmm r vp ≠ 0) :
    z.HasFrame (r, vp) (flat z.vmm r vp / 0x1000) := ⟨hr, hvp, h0, rfl⟩

/-- The frames of an address space are in use. -/
theorem Isolated.used (h : Isolated z) (hr : z.Root r) : ∀ vp < userHalf, flat z.vmm r vp ≠ 0 →
    isppUsed z.mem (frame (flat z.vmm r vp)) ≠ 0 := by
  intro vp hvp h0
  rw [(h.frame_eq hr hvp h0).1]
  exact h.frames.used (r, vp) _ (Isolated.hasFrame hr hvp h0)

/-! ## What keeps it -/

/-- An address space `r` was made that can be used. -/
structure Made (z z' : Spaces) (r : ℕ) : Prop extends Spawned z z' r where
  mapped : StacksMapped z' r

/-- **A new address space**, in free frames. -/
theorem Isolated.made (h : Isolated z) (hS : Made z z' r) (hL : Laid z'.Root z'.vmm) : Isolated z' := by
  have hroot : ∀ r', z'.Root r' ↔ z.Root r' ∨ r' = r := by
    intro r'
    unfold Spaces.Root
    rw [hS.space.kpml4_eq, hS.space.spaces_eq, List.mem_append, List.mem_singleton, or_assoc]
  have hfresh : ¬ z.Root r := hS.space.fresh
  refine ⟨hS.space.inv, hL, ?_, ?_, fun q hq => h.limit q (hS.valid_eq q ▸ hq), fun r' vp hr' hvp h0 => ?_, ?_,
    fun r' hr' => ?_⟩
  · rw [hS.cr3_eq]
    exact hS.space.root h.cr3
  · rw [hS.space.kpml4_eq, hS.space.spaces_eq, List.mem_append, List.mem_singleton, not_or]
    exact ⟨h.kernel, fun he => hfresh (Or.inl he.symm)⟩
  · rcases (hroot r').1 hr' with hr' | rfl
    · rw [hS.others r' vp hr' hvp] at h0 ⊢
      exact h.pages r' vp hr' hvp h0
    · obtain ⟨q, hq, he, -⟩ := hS.pages vp hvp h0
      exact ⟨q, hq, he⟩
  · refine h.frames.grow (fun q hq => (hS.kept q hq).1) ?_ ?_
    · rintro ⟨r', vp⟩ q ⟨hr', hvp, h0, he⟩
      dsimp only at hr' hvp h0 he
      rcases (hroot r').1 hr' with hr' | rfl
      · rw [hS.others r' vp hr' hvp] at h0 he
        exact Or.inl ⟨hr', hvp, h0, he⟩
      · obtain ⟨h1, h2⟩ := (hS.pages vp hvp h0).frame
        rw [he] at h1 h2
        exact Or.inr ⟨h1, h2⟩
    · -- a frame that was free is behind a page of the new address space
      have hnew : ∀ {r' vp q}, ¬ z.Used q → z'.HasFrame (r', vp) q → r' = r := by
        rintro r' vp q hq ⟨hr', hvp, h0, he⟩
        dsimp only at hr' hvp h0 he
        rcases (hroot r').1 hr' with hr' | hr'
        · rw [hS.others r' vp hr' hvp] at h0 he
          exact absurd (h.frames.used (r', vp) q ⟨hr', hvp, h0, he⟩) hq
        · exact hr'
      rintro ⟨r₁, vp₁⟩ ⟨r₂, vp₂⟩ q hq hk hk'
      obtain rfl := hnew hq hk
      obtain rfl := hnew hq hk'
      obtain ⟨-, h1, h2, h3⟩ := hk
      obtain ⟨-, h4, h5, h6⟩ := hk'
      dsimp only at h1 h2 h3 h4 h5 h6
      rw [hS.inj vp₁ h1 vp₂ h4 h2 h5 (h3.trans h6.symm)]
  · rw [hS.space.spaces_eq, List.mem_append, List.mem_singleton] at hr'
    rcases hr' with hr' | rfl
    · unfold StacksMapped
      rw [hS.others r' _ (Or.inr hr') (by decide), hS.others r' _ (Or.inr hr') (by decide)]
      exact h.stackPages r' hr'
    · exact hS.mapped

/-- The same address spaces with the same pages in the user half, and the same frames in use. -/
structure SameUser (z z' : Spaces) : Prop where
  inv : SpaceInv z'
  kpml4_eq : z'.kpml4 = z.kpml4
  spaces_eq : z'.spaces = z.spaces
  mem_eq : z'.mem = z.mem
  flat_eq : ∀ r vp, z.Root r → vp < userHalf → flat z'.vmm r vp = flat z.vmm r vp

theorem SameUser.root (h : SameUser z z') : z'.Root = z.Root := by
  unfold Spaces.Root
  rw [h.kpml4_eq, h.spaces_eq]

theorem SameUser.hasFrame (h : SameUser z z') : z'.HasFrame k q ↔ z.HasFrame k q := by
  unfold Spaces.HasFrame
  rw [h.root]
  refine and_congr_right fun hr => and_congr_right fun hvp => ?_
  rw [h.flat_eq k.1 k.2 hr hvp]

theorem Isolated.same (h : Isolated z) (hU : SameUser z z') (hL : Laid z'.Root z'.vmm) (hcr : z.Root z'.cr3) :
    Isolated z' := by
  refine ⟨hU.inv, hL, by rw [hU.root]; exact hcr, by rw [hU.kpml4_eq, hU.spaces_eq]; exact h.kernel,
    by rw [hU.mem_eq]; exact h.limit, fun r vp hr hvp h0 => ?_, ⟨fun k q hk => ?_, fun k k' q hk hk' => ?_⟩,
    fun r hr => ?_⟩
  · rw [hU.root] at hr
    rw [hU.flat_eq r vp hr hvp] at h0 ⊢
    exact h.pages r vp hr hvp h0
  · unfold Spaces.Used
    rw [hU.mem_eq]
    exact h.frames.used k q (hU.hasFrame.1 hk)
  · exact h.frames.unique k k' q (hU.hasFrame.1 hk) (hU.hasFrame.1 hk')
  · rw [hU.spaces_eq] at hr
    unfold StacksMapped
    rw [hU.flat_eq r _ (Or.inr hr) (by decide), hU.flat_eq r _ (Or.inr hr) (by decide)]
    exact h.stackPages r hr

/-- **An address space is given up**, and its frames. -/
theorem Isolated.discarded (h : Isolated z) (hD : Discarded z z' r) (hr : z.Root r) (hcr : z.cr3 ≠ r) : Isolated z' := by
  obtain ⟨-, hc, hk, -⟩ := hD.beside
  have hold : ∀ {r'}, z'.Root r' → z.Root r' ∧ r' ≠ r := fun hr' => (hD.root _).1 hr'
  refine ⟨hD.inv, ⟨hD.wired h.laid.toWired, hD.housed h.laid.housed⟩, ?_, ?_, fun q hq => h.limit q (hD.valid_eq q ▸ hq), fun r' vp hr' hvp h0 => ?_, ?_,
    fun r' hr' => ?_⟩
  · rw [hc, hD.root]
    exact ⟨h.cr3, hcr⟩
  · rw [hk, hD.spaces, not_and]
    exact fun hmem => absurd hmem h.kernel
  · rw [hD.flat_eq hr' vp] at h0 ⊢
    exact h.pages r' vp (hold hr').1 hvp h0
  · refine h.frames.release (S := fun k => k.1 = r) ?_ fun q hq => ?_
    · rintro ⟨r', vp⟩ q ⟨hr', hvp, h0, he⟩
      dsimp only at hr' hvp h0 he
      rw [hD.flat_eq hr' vp] at h0 he
      exact ⟨⟨(hold hr').1, hvp, h0, he⟩, (hold hr').2⟩
    · rcases hD.used q hq with hu | ⟨vp, hvp, h0, he⟩
      · exact Or.inl hu
      · exact Or.inr ⟨(r, vp), rfl, hr, hvp, h0, he⟩
  · have hroot : z'.Root r' := Or.inr hr'
    unfold StacksMapped
    rw [hD.flat_eq hroot, hD.flat_eq hroot]
    exact h.stackPages r' ((hD.spaces r').1 hr').1

/-! ## Address spaces are made -/

theorem Isolated.create_made (h : Isolated z) (hfree : 2 ≤ (freePages z.mem).card)
    (hm : z.createAddressSpace = some (r, z')) :
    Made z z' r ∧ ∀ vp < userHalf, (flat z'.vmm r vp ≠ 0 ↔ vp = userStackPage ∨ vp = stackPage) := by
  obtain ⟨hS, hst⟩ := create_spawned h.inv hfree hm
  refine ⟨⟨hS, ?_, ?_⟩, hst⟩
  · exact (hst _ (by decide)).2 (Or.inl rfl)
  · exact (hst _ (by decide)).2 (Or.inr rfl)

/-- **`copy_addr_space`** makes an address space with the same pages, and with what is in them. -/
theorem Isolated.copy_made {c : ℕ} (h : Isolated z) (hr : r ∈ z.spaces) (hfree : (rest z r 0).card ≤ (freePages z.mem).card)
    (hm : z.copyAddrSpace r = some (c, z')) : Made z z' c ∧ PrivateCopy z r c z' := by
  have hR : z.Root r := Or.inr hr
  obtain ⟨hS, hmapped⟩ := copy_spawned h.inv hR h.cr3 (h.used hR) hfree hm
  refine ⟨⟨hS, ?_, ?_⟩, copyAddrSpace_private h.inv hR h.cr3 (h.used hR) hfree hm⟩
  · exact (hmapped _ (by decide)).2 (h.stackPages r hr).1
  · exact (hmapped _ (by decide)).2 (h.stackPages r hr).2

/-- **`load_elf`** leaves the address spaces as they are, or makes one with both stacks. -/
theorem Isolated.load_made {f : ElfFile} {s' : Loader} {ep : Option ℕ} (h : Isolated z) (hok : LoadOk z f)
    (hm : Loader.loadElf f.disk f.special f.fd ⟨z, f.fds, 0⟩ = some (n, ep, s')) :
    s'.spaces = z ∨ ∃ r, Made z s'.spaces r := by
  obtain ⟨hfree, node, content, hF, hB, hat, hfits⟩ := hok
  rcases loadElf_outcome hm with heq | ⟨r, hdr, s₁, ok, hs, hcreate, hload⟩
  · exact Or.inl heq
  have hmade := (h.create_made hfree hcreate).1
  refine Or.inr ⟨r, loadEntries_rule (K := fun z' => Made z z' r) _ s₁ (fun i v e s₂ hv ht hS hm => ?_) hmade hload⟩
  obtain ⟨hP, hlen, he⟩ := ElfVisits.spec h.inv h.cr3 hF hat ⟨hdr, s₁, hs, hv⟩
  obtain ⟨hbelow, hseg⟩ := hfits r i v e ⟨hdr, s₁, hs, hv⟩
  have hl : BelowLimit v.spaces.mem := fun q hq => h.limit q (hS.valid_eq q ▸ hq)
  have hC : CopiesInside f.special f.fd node content v r e := by
    rw [he] at hseg ⊢
    exact (copiesInside_phdrAt hP hF hlen).2 hseg
  obtain ⟨hS', hkept⟩ := hS.toSpawned.segment hl hP hF hB hC (fun hne => (hseg.data hne).1) hbelow ht hm
  exact ⟨hS', hkept _ (by decide) hS.mapped.1, hkept _ (by decide) hS.mapped.2⟩

/-- What the calls are made of keeps `J`, and so does `load_elf`. -/
theorem SpaceRule.loadElf {J : Spaces → Prop} {f : ElfFile} {s' : Loader} {ep : Option ℕ} (hJ : SpaceRule J)
    (h : Isolated z) (hj : J z) (hok : LoadOk z f)
    (hm : Loader.loadElf f.disk f.special f.fd ⟨z, f.fds, 0⟩ = some (n, ep, s')) : J s'.spaces := by
  obtain ⟨-, node, content, hF, -, hat, hfits⟩ := hok
  rcases loadElf_outcome hm with heq | ⟨r, hdr, s₁, ok, hs, hcreate, hload⟩
  · rw [heq]
    exact hj
  · refine loadEntries_rule _ s₁ (fun i v e s₂ hv ht hj hm => ?_) (hJ.createAddressSpace h.inv hj hcreate) hload
    obtain ⟨hP, -, -⟩ := ElfVisits.spec h.inv h.cr3 hF hat ⟨hdr, s₁, hs, hv⟩
    obtain ⟨hbelow, hseg⟩ := hfits r i v e ⟨hdr, s₁, hs, hv⟩
    exact (hJ.loadSegment hP.inv hj hP.root hbelow hseg.pages ht hm).2

/-- How the structures lie. -/
theorem laid_rule : SpaceRule fun z => Laid z.Root z.vmm := by
  refine ⟨fun {z z' pa va n r u} h hL hr _ hm => ?_, fun {z z' n r} h hL hr _ hm => ?_, fun {z z' r} h hL hm => ?_,
    fun mem page hL => hL⟩
  · obtain ⟨⟨st, v⟩, h1, rfl⟩ := Option.map_eq_some_iff.1 hm
    exact (laid_mapRule z.Root (· = 511)).mapMemory hL h.tables hr h1
  · obtain ⟨⟨st, v⟩, h1, rfl⟩ := Option.map_eq_some_iff.1 hm
    exact (laid_mapRule z.Root (· = 511)).unmapMemory hL h.tables hr h1
  · exact ⟨newPml4t_wired h hL.toWired hm, newPml4t_housed h hL.housed hm⟩

/-! ## The window is opened and closed -/

/-- `z'` is `z` with other contents `page`. -/
structure Rewritten (z z' : Spaces) (page : ℕ → ℕ → UInt8) : Prop where
  user : SameUser z z'
  cr3_eq : z'.cr3 = z.cr3
  page_eq : z'.page = page

theorem Isolated.rewritten {page : ℕ → ℕ → UInt8} (h : Isolated z) (hR : Rewritten z z' page)
    (hL : Laid z'.Root z'.vmm) : Isolated z' := by
  refine h.same hR.user hL ?_
  rw [hR.cr3_eq]
  exact h.cr3

theorem SpaceInv.rewrites (h : SpaceInv z) (page : ℕ → ℕ → UInt8) : Rewritten z { z with page := page } page := by
  have hk : Keeps z { z with page := page } := h.congr rfl rfl rfl rfl
  exact ⟨⟨hk.inv, rfl, rfl, rfl, fun _ _ _ _ => rfl⟩, rfl, rfl⟩

/-- **The window is opened and closed**, and in between the contents are changed. -/
def ThroughWindow (z z' : Spaces) (r pa : ℕ) (z₁ : Spaces) (page : ℕ → ℕ → UInt8) : Prop :=
  z.mapMemory pa WINDOW 1 r 0 = some z₁ ∧ ({ z₁ with page := page } : Spaces).unmapMemory WINDOW 1 r = some z'

theorem initialiseStack_through {main : ℕ} (hm : z.initialiseStack r main = some z') :
    ∃ z₁ page, ThroughWindow z z' r (z.vmm.getPageEntry r (USER_STACK + 0x1000 - 1)) z₁ page ∧
      z₁.write (WINDOW + 0x1000 - 8) (Spaces.wordBytes main) = some { z₁ with page := page } := by
  unfold Spaces.initialiseStack at hm
  obtain ⟨z₁, h1, hm⟩ := Option.bind_eq_some_iff.1 hm
  obtain ⟨z₂, h2, h3⟩ := Option.bind_eq_some_iff.1 hm
  have he := write_eq _ _ _ _ h2
  rw [he] at h2 h3
  exact ⟨z₁, z₂.page, ⟨h1, h3⟩, h2⟩

theorem forkStack_through {p c : ℕ} (hm : z.forkStack p c = some z') :
    ∃ z₁, z₁.vmm.getPageEntry z₁.cr3 KERNEL_STACK ≠ 0 ∧
      ThroughWindow z z' p (z.vmm.getPageEntry c KERNEL_STACK) z₁ (Function.update z₁.page z₁.windowPage
        (z₁.page (z₁.vmm.getPageEntry z₁.cr3 KERNEL_STACK / 0x1000))) := by
  unfold Spaces.forkStack at hm
  obtain ⟨z₁, h1, hm⟩ := Option.bind_eq_some_iff.1 hm
  dsimp only at hm
  split_ifs at hm with h0
  exact ⟨z₁, h0, h1, hm⟩

theorem ThroughWindow.opened {pa : ℕ} {z₁ : Spaces} {page : ℕ → ℕ → UInt8} (hT : ThroughWindow z z' r pa z₁ page)
    (h : SpaceInv z) (hr : z.Root r) : OnePage z z₁ r windowVp (frame pa) 0 :=
  (mapOne_yields pa WINDOW 0 h hr (by decide)).1 z₁ hT.1

theorem ThroughWindow.rewritten {pa : ℕ} {z₁ : Spaces} {page : ℕ → ℕ → UInt8} (hT : ThroughWindow z z' r pa z₁ page)
    (h : SpaceInv z) (hr : z.Root r) : Rewritten z z' page := by
  have hO := hT.opened h hr
  have h2 := hT.2
  have hk : Keeps z₁ { z₁ with page := page } := hO.keeps.inv.congr rfl rfl rfl rfl
  have hr₁ : Spaces.Root { z₁ with page := page } r := (hO.keeps.trans hk).root ▸ hr
  have hk' := (hO.keeps.trans hk).trans (unmapMemory_keeps hk.inv hr₁ h2).1
  obtain ⟨⟨st, v⟩, h3, rfl⟩ := Option.map_eq_some_iff.1 h2
  have hU := unmapMemory_spec hk.inv.tables hr₁ h3
  refine ⟨⟨hk'.inv, hk'.kpml4_eq, hk'.spaces_eq, hO.mem_eq, fun r' vp hr' hvp => ?_⟩, hO.cr3_eq, rfl⟩
  have hroot : Spaces.Root { z₁ with page := page } r' := (hO.keeps.trans hk).root ▸ hr'
  rw [hU.outside r' vp hroot (Or.inl (hvp.trans_le (by decide)))]
  exact hO.other r' vp hr' (Or.inl (windowVp_ne hvp))

theorem ThroughWindow.keeps {pa : ℕ} {z₁ : Spaces} {page : ℕ → ℕ → UInt8} {J : Spaces → Prop}
    (hT : ThroughWindow z z' r pa z₁ page) (hJ : SpaceRule J) (h : SpaceInv z) (hj : J z) (hr : z.Root r) : J z' :=
  hJ.through h hj hr hT.1 hT.2

/-- The contents of a page as a word on top of the stack makes them. -/
def withTop (page : ℕ → UInt8) (main : ℕ) : ℕ → UInt8 := fun y =>
  if 0xFF8 ≤ y ∧ y < 0x1000 then (Spaces.wordBytes main).getD (y - 0xFF8) 0 else page y

/-- **`initialise_task`** writes to the top of the user stack. -/
theorem initialiseStack_spec {main : ℕ} (h : Isolated z) (hr : r ∈ z.spaces) (hm : z.initialiseStack r main = some z') :
    Rewritten z z' (Function.update z.page (flat z.vmm r userStackPage / 0x1000)
      (withTop (z.page (flat z.vmm r userStackPage / 0x1000)) main)) := by
  have hR : z.Root r := Or.inr hr
  have hfr := (h.frame_eq hR (show userStackPage < userHalf by decide) (h.stackPages r hr).1).1
  obtain ⟨z₁, page, hT, hwrite⟩ := initialiseStack_through hm
  rw [getPageEntry_eq (h.inv.tables.root r hR),
    show (USER_STACK + 0x1000 - 1) % 2 ^ 48 / 0x1000 = userStackPage by decide] at hT
  have hO := hT.opened h.inv hR
  have hrew := hT.rewritten h.inv hR
  rw [hfr] at hO
  generalize flat z.vmm r userStackPage / 0x1000 = q at hO
  -- the window shows the stack
  have hshows : WindowShows z₁ q 1 := by
    have hcr : z₁.Root z₁.cr3 := by
      rw [hO.cr3_eq, hO.keeps.root]
      exact h.cr3
    refine ⟨hO.keeps.inv.tables.root _ hcr, fun k hk => ?_, by decide⟩
    obtain rfl : k = 0 := by omega
    have he := hO.entry
    rw [if_neg (show ¬ 0 ≠ 0 by simp), ← hO.keeps.inv.flat_kernel hcr (hO.keeps.root ▸ hR) (by decide)] at he
    exact he
  have hlen : (Spaces.wordBytes main).length = 8 := by simp [Spaces.wordBytes]
  obtain ⟨page', hw, hin, hout⟩ := write_window (Spaces.wordBytes main) z₁ 0xFF8 hshows (by omega)
  rw [show WINDOW + 0x1000 - 8 = WINDOW + 0xFF8 by decide, hw] at hwrite
  obtain rfl : page' = page := congrArg Spaces.page (Option.some.inj hwrite)
  have hpage : page' = Function.update z.page q (withTop (z.page q) main) := by
    funext a y
    rw [← hO.page_eq]
    by_cases hq : a = q ∧ 0xFF8 ≤ y ∧ y < 0x1000
    · obtain ⟨rfl, h4, h5⟩ := hq
      have hbyte := hin (y - 0xFF8) (by omega)
      rw [show (0xFF8 + (y - 0xFF8)) / 0x1000 = 0 by omega, show (0xFF8 + (y - 0xFF8)) % 0x1000 = y by omega,
        Nat.add_zero] at hbyte
      rw [hbyte, Function.update_self]
      exact (if_pos ⟨h4, h5⟩).symm
    · rw [hout a y fun i hi hc => hq (by omega)]
      by_cases ha : a = q
      · subst ha
        rw [Function.update_self]
        exact (if_neg fun hc => hq ⟨rfl, hc⟩).symm
      · rw [Function.update_of_ne ha]
  rw [← hpage]
  exact hrew

/-- **`kfork`** copies the page of the kernel's stack. -/
theorem forkStack_spec {c : ℕ} (h : Isolated z) (hr : z.cr3 ∈ z.spaces) (hc : c ∈ z.spaces)
    (hm : z.forkStack z.cr3 c = some z') :
    Rewritten z z' (Function.update z.page (flat z.vmm c stackPage / 0x1000)
      (z.page (flat z.vmm z.cr3 stackPage / 0x1000))) := by
  have hR : z.Root z.cr3 := Or.inr hr
  have hC : z.Root c := Or.inr hc
  have hfr := (h.frame_eq hC (show stackPage < userHalf by decide) (h.stackPages c hc).2).1
  have hst : KERNEL_STACK % 2 ^ 48 / 0x1000 = stackPage := rfl
  obtain ⟨z₁, -, hT⟩ := forkStack_through hm
  rw [getPageEntry_eq (h.inv.tables.root c hC), hst] at hT
  have hO := hT.opened h.inv hR
  have hwin := hO.window hR h.cr3
  have hentry : z₁.vmm.getPageEntry z₁.cr3 KERNEL_STACK = flat z.vmm z.cr3 stackPage := by
    rw [hO.cr3_eq, getPageEntry_eq (h.inv.tables.root _ hR), hst]
    exact hO.other z.cr3 stackPage hR (Or.inl (windowVp_ne (by decide)))
  rw [hfr] at hwin
  rw [hentry, hwin, hO.page_eq] at hT
  exact hT.rewritten h.inv hR

/-! ## Stores of user code -/

/-- The user bits of the entries above a page are only set in the user half. -/
theorem SpaceInv.user_half (h : SpaceInv z) (hr : z.Root r) (hvp : vp < 2 ^ 36) (hu : upperUser z.vmm r vp = true) :
    vp < userHalf := by
  by_contra hc
  have hi : vp / 512 ^ 3 = 511 := by unfold userHalf at hc; omega
  have hk := (h.kernel r hr).2
  unfold upperUser entryUser at hu
  rw [hi] at hu
  simp only [Bool.and_eq_true, decide_eq_true_eq] at hu
  omega

/-- **A store of user code** goes to the frame of a page in the user half of the address space that is loaded. -/
theorem userStore_spec {va : ℕ} {b : UInt8} (h : Isolated z) (hM : SlotsMapped z.vmm) (hm : z.userStore va b = some z') :
    va % 2 ^ 48 / 0x1000 < userHalf ∧ flat z.vmm z.cr3 (va % 2 ^ 48 / 0x1000) ≠ 0 ∧ Spaces.canonical va = true ∧
      Rewritten z z' (Function.update z.page (flat z.vmm z.cr3 (va % 2 ^ 48 / 0x1000) / 0x1000)
        (Function.update (z.page (flat z.vmm z.cr3 (va % 2 ^ 48 / 0x1000) / 0x1000)) (va % 0x1000) b)) := by
  obtain ⟨t, ht, hm⟩ := Option.bind_eq_some_iff.1 hm
  rw [h.laid.mmuWalk h.inv.tables (h.laid.housed.heapMapped h.inv.tables hM) h.cr3, getPageEntry_eq (h.inv.tables.root _ h.cr3)] at ht
  split_ifs at ht with hpres
  obtain rfl := Option.some.inj ht
  dsimp only at hm
  split_ifs at hm with hallow
  simp only [Bool.and_eq_true] at hallow
  obtain ⟨⟨hcan, hup, -⟩, -⟩ := hallow
  have hvp := h.inv.user_half h.cr3 (by omega) hup
  generalize va % 2 ^ 48 / 0x1000 = vp at *
  have h0 : flat z.vmm z.cr3 vp ≠ 0 := by
    intro h0
    rw [h0] at hpres
    revert hpres
    decide
  refine ⟨hvp, h0, hcan, ?_⟩
  rw [(h.frame_eq h.cr3 hvp h0).2.1] at hm
  obtain rfl := Option.some.inj hm
  exact h.inv.rewrites _

/-! ## Runs -/

/-- **What an event does**, in a state with the invariant. -/
def LifeEffect (z z' : Spaces) : LifeEvent → Prop
  | .create => ∃ r, Made z z' r ∧ ∀ vp < userHalf, (flat z'.vmm r vp ≠ 0 ↔ vp = userStackPage ∨ vp = stackPage)
  | .load _ => z' = z ∨ ∃ r, Made z z' r
  | .initialise r main => r ∈ z.spaces ∧ Rewritten z z' (Function.update z.page (flat z.vmm r userStackPage / 0x1000)
      (withTop (z.page (flat z.vmm r userStackPage / 0x1000)) main))
  | .copy r => r ∈ z.spaces ∧ ∃ c, Made z z' c ∧ PrivateCopy z r c z'
  | .forkStack p c => p = z.cr3 ∧ p ∈ z.spaces ∧ c ∈ z.spaces ∧ Rewritten z z' (Function.update z.page
      (flat z.vmm c stackPage / 0x1000) (z.page (flat z.vmm p stackPage / 0x1000)))
  | .exit r => r ∈ z.spaces ∧ r ≠ z.cr3 ∧ Discarded z z' r
  | .switch r => z.Root r ∧ z' = { z with cr3 := r }
  | .store va b => va % 2 ^ 48 / 0x1000 < userHalf ∧ flat z.vmm z.cr3 (va % 2 ^ 48 / 0x1000) ≠ 0 ∧
      Spaces.canonical va = true ∧
      Rewritten z z' (Function.update z.page (flat z.vmm z.cr3 (va % 2 ^ 48 / 0x1000) / 0x1000)
        (Function.update (z.page (flat z.vmm z.cr3 (va % 2 ^ 48 / 0x1000) / 0x1000)) (va % 0x1000) b))

theorem Isolated.effect (h : Isolated z) (hok : LifeOk z e) (hm : z.lifeStep e = some z') : LifeEffect z z' e := by
  cases e with
  | create =>
    obtain ⟨⟨r, z₁⟩, h1, rfl⟩ := Option.map_eq_some_iff.1 hm
    exact ⟨r, h.create_made hok h1⟩
  | load f =>
    obtain ⟨⟨n, ep, s'⟩, h1, rfl⟩ := Option.map_eq_some_iff.1 hm
    exact h.load_made hok h1
  | initialise r main =>
    dsimp only [Spaces.lifeStep] at hm
    split_ifs at hm with hr
    exact ⟨hr, initialiseStack_spec h hr hm⟩
  | copy r =>
    dsimp only [Spaces.lifeStep] at hm
    split_ifs at hm with hr
    obtain ⟨⟨c, z₁⟩, h1, rfl⟩ := Option.map_eq_some_iff.1 hm
    exact ⟨hr, c, h.copy_made hr hok h1⟩
  | forkStack p c =>
    dsimp only [Spaces.lifeStep] at hm
    split_ifs at hm with hp
    obtain ⟨rfl, hp, hc⟩ := hp
    exact ⟨rfl, hp, hc, forkStack_spec h hp hc hm⟩
  | exit r =>
    dsimp only [Spaces.lifeStep] at hm
    split_ifs at hm with hr
    rw [← Option.some.inj hm]
    exact ⟨hr.1, hr.2, discard_spec h.inv hr.1 fun he => h.kernel (he ▸ hr.1)⟩
  | switch r =>
    dsimp only [Spaces.lifeStep] at hm
    split_ifs at hm with hr
    exact ⟨hr, (Option.some.inj hm).symm⟩
  | store va b => exact userStore_spec h hok hm

/-- **What the calls are made of keeps it, and so does every event**, if giving up an address space and a switch do. -/
theorem SpaceRule.lifeStep {J : Spaces → Prop} (hJ : SpaceRule J) (h : Isolated z) (hj : J z) (hok : LifeOk z e)
    (hexit : ∀ r ∈ z.spaces, J (z.discard r)) (hswitch : ∀ r, J { z with cr3 := r }) (hm : z.lifeStep e = some z') :
    J z' := by
  cases e with
  | create =>
    obtain ⟨⟨r, z₁⟩, h1, rfl⟩ := Option.map_eq_some_iff.1 hm
    exact hJ.createAddressSpace h.inv hj h1
  | load f =>
    obtain ⟨⟨n, ep, s'⟩, h1, rfl⟩ := Option.map_eq_some_iff.1 hm
    exact hJ.loadElf h hj hok h1
  | initialise r main =>
    dsimp only [Spaces.lifeStep] at hm
    split_ifs at hm with hr
    obtain ⟨z₁, page, hT, -⟩ := initialiseStack_through hm
    exact hT.keeps hJ h.inv hj (Or.inr hr)
  | copy r =>
    dsimp only [Spaces.lifeStep] at hm
    split_ifs at hm with hr
    obtain ⟨⟨c, z₁⟩, h1, rfl⟩ := Option.map_eq_some_iff.1 hm
    exact hJ.copyAddrSpace h.inv hj (Or.inr hr) h1
  | forkStack p c =>
    dsimp only [Spaces.lifeStep] at hm
    split_ifs at hm with hp
    obtain ⟨z₁, -, hT⟩ := forkStack_through hm
    exact hT.keeps hJ h.inv hj (Or.inr hp.2.1)
  | exit r =>
    dsimp only [Spaces.lifeStep] at hm
    split_ifs at hm with hr
    rw [← Option.some.inj hm]
    exact hexit r hr.1
  | switch r =>
    dsimp only [Spaces.lifeStep] at hm
    split_ifs at hm with hr
    rw [← Option.some.inj hm]
    exact hswitch r
  | store va b =>
    obtain ⟨t, -, hm⟩ := Option.bind_eq_some_iff.1 hm
    split_ifs at hm
    rw [← Option.some.inj hm]
    exact hJ.congr z.mem _ hj

/-- **Every event keeps the invariant.** -/
theorem Isolated.step (h : Isolated z) (hok : LifeOk z e) (hm : z.lifeStep e = some z') : Isolated z' := by
  have hL : Laid z'.Root z'.vmm := by
    refine laid_rule.lifeStep h h.laid hok (fun r hr => ?_) (fun _ => h.laid) hm
    have hD := discard_spec h.inv hr fun he => h.kernel (he ▸ hr)
    exact ⟨hD.wired h.laid.toWired, hD.housed h.laid.housed⟩
  have hE := h.effect hok hm
  cases e with
  | create =>
    obtain ⟨r, hS, -⟩ := hE
    exact h.made hS hL
  | load f =>
    rcases hE with rfl | ⟨r, hS⟩
    · exact h
    · exact h.made hS hL
  | initialise r main => exact h.rewritten hE.2 hL
  | copy r =>
    obtain ⟨-, c, hS, -⟩ := hE
    exact h.made hS hL
  | forkStack p c => exact h.rewritten hE.2.2.2 hL
  | exit r => exact h.discarded hE.2.2 (Or.inr hE.1) hE.2.1.symm
  | switch r =>
    obtain ⟨hr, rfl⟩ := hE
    have hk : Keeps z { z with cr3 := r } := h.inv.congr rfl rfl rfl rfl
    exact h.same ⟨hk.inv, rfl, rfl, rfl, fun _ _ _ _ => rfl⟩ h.laid hr
  | store va b => exact h.rewritten hE.2.2.2 hL

/-- **The state that runs begin in**: the kernel's own address space is loaded, and it is the only one. -/
structure LifeInit (z : Spaces) : Prop where
  inv : SpaceInv z
  spaces : z.spaces = []
  cr3 : z.cr3 = z.kpml4
  limit : BelowLimit z.mem
  laid : Laid z.Root z.vmm
  pages : ∀ vp < userHalf, flat z.vmm z.kpml4 vp ≠ 0 →
    ∃ q < pageLimit, (flat z.vmm z.kpml4 vp = q * 0x1000 + 7 ∨ flat z.vmm z.kpml4 vp = q * 0x1000 + 3) ∧ z.Used q
  inj : ∀ vp < userHalf, ∀ vp' < userHalf, flat z.vmm z.kpml4 vp ≠ 0 → flat z.vmm z.kpml4 vp' ≠ 0 →
    flat z.vmm z.kpml4 vp / 0x1000 = flat z.vmm z.kpml4 vp' / 0x1000 → vp = vp'

end Nettapus
