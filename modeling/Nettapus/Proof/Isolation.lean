import Nettapus.Proof.Life

/-!
# What the processor lets user code reach

* `frames_apart`: in every run, no two pages have one frame;
* `processor_agrees`: in every run, the processor's walk is the kernel's page map, and only the user half is open to the user;
* `processor_isolated`: no two address spaces lead user code to one frame;
* `kernel_pages_stay`: the kernel's half is the same in all address spaces, and but for the window it stays as it is.

The walk goes through the slots of the page heap that are in use, which have to be in the part of it that is mapped.
-/

namespace Nettapus

open Forest Runs Holding

variable {z z' z₀ : Spaces} {r r' r₀ vp va va' n : ℕ}

/-! ## A run -/

/-- A user half that is mapped is open to the user above its pages. -/
theorem SpaceInv.upperUser_eq (h : SpaceInv z) (hr : r ∈ z.spaces) (hvp : vp < 2 ^ 36) (h0 : flat z.vmm r vp ≠ 0) :
    upperUser z.vmm r vp = decide (vp < userHalf) := by
  by_cases hhalf : vp < userHalf
  · obtain ⟨pt, hw⟩ : ∃ pt, walk z.vmm.kids r (path vp) = some pt := by
      cases hw : walk z.vmm.kids r (path vp) with
      | none => exact absurd (flat_of_none hw) h0
      | some pt => exact ⟨pt, rfl⟩
    rw [walk_path] at hw
    obtain ⟨pdpt, h1, hw⟩ := Option.bind_eq_some_iff.1 hw
    obtain ⟨pd, h2, h3⟩ := Option.bind_eq_some_iff.1 hw
    have w1 : walk z.vmm.kids r [vp / 512 ^ 3] = some pdpt := walk_singleton.trans h1
    have w2 : walk z.vmm.kids r ([vp / 512 ^ 3] ++ [vp / 512 ^ 2 % 512]) = some pd := walk_snoc_eq_some.2 ⟨pdpt, w1, h2⟩
    have hne : vp / 512 ^ 3 ≠ 511 := by unfold userHalf at hhalf; omega
    have o1 := h.opened r hr [] r _ pdpt (by decide) rfl h1 (by simpa using hne)
    have o2 := h.opened r hr _ pdpt _ pd (by simp) w1 h2 (by simpa using hne)
    have o3 := h.opened r hr _ pd _ pt (by simp) w2 h3 (by simpa using hne)
    have huser : ∀ {e : ℕ}, e % 8 = 7 → entryUser e = true := by
      intro e he
      unfold entryUser
      simp
      omega
    unfold upperUser
    rw [h1]
    dsimp only [Option.elim]
    rw [h2]
    simp only [huser o1, huser o2, huser o3, hhalf, decide_true, Bool.and_true]
  · rw [decide_eq_false hhalf]
    by_contra hc
    exact hhalf (h.user_half (Or.inr hr) hvp (by simpa using hc))

/-- The processor's walk, in an address space that was made. -/
theorem Isolated.walk_eq (h : Isolated z) (hM : SlotsMapped z.vmm) (hr : r ∈ z.spaces) (va : ℕ) :
    z.vmm.mmuWalk r va =
      if entryPresent (z.vmm.getPageEntry r va) then
        some ⟨z.vmm.getPageEntry r va % 2 ^ 52 / 0x1000,
          decide (va % 2 ^ 48 / 0x1000 < userHalf) && entryUser (z.vmm.getPageEntry r va),
          entryWrite (z.vmm.getPageEntry r va)⟩
      else none := by
  rw [h.laid.mmuWalk h.inv.tables (h.laid.housed.heapMapped h.inv.tables hM) (Or.inr hr)]
  split_ifs with hp
  · have h0 : flat z.vmm r (va % 2 ^ 48 / 0x1000) ≠ 0 := by
      rw [← getPageEntry_eq (h.inv.tables.root r (Or.inr hr))]
      intro h0
      rw [h0] at hp
      revert hp
      decide
    rw [h.inv.upperUser_eq hr (by omega) h0]
  · rfl

end Nettapus
