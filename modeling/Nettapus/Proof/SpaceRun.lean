import Nettapus.Proof.Space
import Nettapus.Lib.Runs
import Mathlib.Data.Nat.Bitwise

/-!
# Pages of the kernel and the user

* `UserPage`: a page that the user can reach, by the entries of all four levels.
* `copyAddrSpace_spec`: `copy_addr_space` maps every page for the user, the kernel's stack as well.
* `slot511_protected`: no page below the last entry of a PML4T is a page of the user, in any run.
* `kernel_pages_protected`: nor is the kernel's stack, as long as nothing is copied and no segment
  of a loaded file covers the stack; and only as long.
* `kernel_stack_exposed`: a run that makes an address space and copies it.
-/

namespace Nettapus

open Forest Runs

variable {z z' z₁ z₂ : Spaces} {r r' ret n : ℕ}

/-! ## `copy_addr_space` -/

/-- What a loop of `copy_addr_space` keeps. -/
structure Copying (ret : ℕ) (z z' : Spaces) : Prop where
  keeps : Keeps z z'
  stack_eq : ∀ r', z.Root r' → r' ≠ ret → flat z'.vmm r' stackPage = flat z.vmm r' stackPage
  exposed : flat z.vmm ret stackPage % 8 = 7 → flat z'.vmm ret stackPage % 8 = 7

theorem SpaceInv.copying_refl (h : SpaceInv z) (ret : ℕ) : Copying ret z z :=
  ⟨h.keeps_refl, fun _ _ _ => rfl, id⟩

theorem Copying.trans (h : Copying ret z z₁) (h' : Copying ret z₁ z₂) : Copying ret z z₂ := by
  refine ⟨h.keeps.trans h'.keeps, fun r' hr' hne => ?_, fun hq => h'.exposed (h.exposed hq)⟩
  rw [h'.stack_eq r' (h.keeps.root ▸ hr') hne, h.stack_eq r' hr' hne]

theorem Copying.root (h : Copying ret z z') (hr : z.Root r) : z'.Root r := h.keeps.root ▸ hr

/-- **A page is copied**, and mapped for the user. -/
theorem copyPage_spec {entry va : ℕ} (h : SpaceInv z) (hr : z.Root ret)
    (hm : z.copyPage ret entry va = some z') :
    Copying ret z z' ∧ (Covers va 1 → flat z'.vmm ret stackPage % 8 = 7) := by
  unfold Spaces.copyPage at hm
  obtain ⟨z₁, h1, hm⟩ := Option.bind_eq_some_iff.1 hm
  obtain ⟨z₂, h2, hm⟩ := Option.bind_eq_some_iff.1 hm
  obtain ⟨z₃, h3, rfl⟩ := Option.map_eq_some_iff.1 hm
  obtain ⟨k1, -, s1⟩ := mapMemory_keeps h hr h1
  have k1' := k1.trans (keeps_allocpp k1.inv)
  obtain ⟨k2, c2, s2⟩ := mapMemory_keeps k1'.inv (k1'.root ▸ hr) h2
  have k12 := k1'.trans k2
  obtain ⟨k3, -, s3⟩ := mapMemory_keeps k2.inv (k12.root ▸ hr) h3
  -- the window is not at the stack: only the page itself matters
  have hs3 : ∀ r', z.Root r' → flat z₃.vmm r' stackPage = flat z₂.vmm r' stackPage := fun r' hr' =>
    s3 r' (k12.root ▸ hr') (Or.inl (not_covers_window 1))
  have hs1 : ∀ r', z.Root r' → flat z₁.vmm r' stackPage = flat z.vmm r' stackPage := fun r' hr' =>
    s1 r' hr' (Or.inl (not_covers_window 1))
  have hcov : Covers va 1 → flat z₃.vmm ret stackPage % 8 = 7 := fun hc => by
    rw [hs3 ret hr]
    exact c2 hc
  refine ⟨⟨(k12.trans k3).trans (k3.inv.congr rfl rfl rfl rfl), fun r' hr' hne => ?_, fun hq => ?_⟩, hcov⟩
  · show flat z₃.vmm r' stackPage = _
    rw [hs3 r' hr', s2 r' (k1'.root ▸ hr') (Or.inr hne)]
    exact hs1 r' hr'
  · by_cases hc : Covers va 1
    · exact hcov hc
    · show flat z₃.vmm ret stackPage % 8 = 7
      rw [hs3 ret hr, s2 ret (k1'.root ▸ hr) (Or.inl hc)]
      exact (congrArg (· % 8) (hs1 ret hr)).trans hq

/-- A loop whose iterations copy, copies. -/
theorem foldlM_copying {f : Spaces → ℕ → Option Spaces} {l : List ℕ} (h : SpaceInv z) (hr : z.Root ret)
    (hf : ∀ z x z', SpaceInv z → z.Root ret → f z x = some z' → Copying ret z z')
    (hm : l.foldlM f z = some z') : Copying ret z z' :=
  foldlM_inv (J := Copying ret z)
    (fun b x b' _ hb hx => hb.trans (hf b x b' hb.keeps.inv (hb.root hr) hx)) (h.copying_refl ret) hm

/-- An iteration does nothing where there is nothing to copy. -/
theorem copying_ite {c : Prop} [Decidable c] {m : Option Spaces} (h : SpaceInv z)
    (hm : (if c then some z else m) = some z') (hc : m = some z' → Copying ret z z') : Copying ret z z' := by
  split_ifs at hm
  · obtain rfl := Option.some.inj hm
    exact h.copying_refl ret
  · exact hc hm

theorem copyTable_iter {pt i j k l : ℕ} (h : SpaceInv z) (hr : z.Root ret)
    (hm : (if (z.vmm.tab pt).entries l = 0 then some z else z.copyPage ret ((z.vmm.tab pt).entries l)
      ((l + k * 512 + j * 512 * 512 + i * 512 * 512 * 512) * 0x1000)) = some z') : Copying ret z z' :=
  copying_ite h hm fun hm => (copyPage_spec h hr hm).1

theorem copyDir_iter {pd i j k : ℕ} (h : SpaceInv z) (hr : z.Root ret)
    (hm : (if (z.vmm.tab pd).child k = NULL then some z
      else z.copyTable ret ((z.vmm.tab pd).child k) i j k) = some z') : Copying ret z z' :=
  copying_ite h hm fun hm => foldlM_copying h hr (fun _ _ _ => copyTable_iter) hm

theorem copyDirPtr_iter {pdpt i j : ℕ} (h : SpaceInv z) (hr : z.Root ret)
    (hm : (if (z.vmm.tab pdpt).child j = NULL then some z
      else z.copyDir ret ((z.vmm.tab pdpt).child j) i j) = some z') : Copying ret z z' :=
  copying_ite h hm fun hm => foldlM_copying h hr (fun _ _ _ => copyDir_iter) hm

theorem copyPml4t_iter {pml4t i : ℕ} (h : SpaceInv z) (hr : z.Root ret)
    (hm : (if (z.vmm.tab pml4t).child i = NULL then some z
      else z.copyDirPtr ret ((z.vmm.tab pml4t).child i) i) = some z') : Copying ret z z' :=
  copying_ite h hm fun hm => foldlM_copying h hr (fun _ _ _ => copyDirPtr_iter) hm

/-- The stack is mapped in `r`, which is another address space than the copy. -/
structure Source (ret r : ℕ) (z : Spaces) : Prop where
  inv : SpaceInv z
  copy : z.Root ret
  root : z.Root r
  ne : r ≠ ret
  mapped : flat z.vmm r stackPage ≠ 0

theorem Source.copying (h : Source ret r z) (hc : Copying ret z z') : Source ret r z' := by
  refine ⟨hc.keeps.inv, hc.root h.copy, hc.root h.root, h.ne, ?_⟩
  rw [hc.stack_eq r h.root h.ne]
  exact h.mapped

theorem path_stackPage : path stackPage = [510, 511, 511] := by decide

theorem stackPage_mod : stackPage % 512 = 511 := by decide

/-- The page table of the stack is there. -/
theorem Source.table (h : Source ret r z) : ∃ pt, walk z.vmm.kids r [510, 511, 511] = some pt ∧
    (z.vmm.tab pt).entries 511 ≠ 0 := by
  cases hw : walk z.vmm.kids r (path stackPage) with
  | none => exact absurd (flat_of_none hw) h.mapped
  | some pt =>
    have he := h.mapped
    rw [flat_of_walk hw, stackPage_mod] at he
    rw [path_stackPage] at hw
    exact ⟨pt, hw, he⟩

/-- A structure above the stack has a child on the way to it. -/
theorem Source.child {p q : List ℕ} {t i : ℕ} (h : Source ret r z) (hp : p ++ i :: q = [510, 511, 511])
    (ht : walk z.vmm.kids r p = some t) :
    (z.vmm.tab t).child i ≠ NULL ∧ walk z.vmm.kids r (p ++ [i]) = some ((z.vmm.tab t).child i) := by
  obtain ⟨pt, hw, -⟩ := h.table
  rw [← hp, walk_append, ht, Option.bind_some, walk_cons] at hw
  obtain ⟨a, ha, -⟩ := Option.bind_eq_some_iff.1 hw
  obtain ⟨-, h1, h2⟩ := kids_eq_some.1 ha
  rw [h1]
  exact ⟨h2, walk_snoc_eq_some.2 ⟨t, ht, ha⟩⟩

/-- A loop of `copy_addr_space` that comes to the stack. -/
theorem foldlM_exposes {f : Spaces → ℕ → Option Spaces} {l : List ℕ} {x : ℕ} (hS : Source ret r z) (hx : x ∈ l)
    (hf : ∀ z x z', SpaceInv z → z.Root ret → f z x = some z' → Copying ret z z')
    (h₀ : ∀ b b', Copying ret z b → Source ret r b → f b x = some b' → flat b'.vmm ret stackPage % 8 = 7)
    (hm : l.foldlM f z = some z') : flat z'.vmm ret stackPage % 8 = 7 := by
  refine foldlM_reach (J := Copying ret z) (Q := fun b => flat b.vmm ret stackPage % 8 = 7)
    (fun b y b' _ hb hy => hb.trans (hf b y b' hb.keeps.inv (hb.root hS.copy) hy))
    (fun b y b' _ hb hq hy => (hf b y b' hb.keeps.inv (hb.root hS.copy) hy).exposed hq) hx
    (fun b b' hb hy => h₀ b b' hb (hS.copying hb) hy) (hS.inv.copying_refl ret) hm

theorem copyTable_exposes {pt : ℕ} (hS : Source ret r z) (hw : walk z.vmm.kids r [510, 511, 511] = some pt)
    (hm : z.copyTable ret pt 510 511 511 = some z') : flat z'.vmm ret stackPage % 8 = 7 := by
  unfold Spaces.copyTable at hm
  have hx : 511 ∈ List.range 512 := by simp
  refine foldlM_exposes hS hx (fun _ _ _ => copyTable_iter)
    (fun b b' hb hSb hx => ?_) hm
  obtain ⟨pt', hw', he⟩ := hSb.table
  rw [hb.keeps.grown.walk r _ pt hS.root (by decide) hw] at hw'
  obtain rfl := Option.some.inj hw'
  rw [if_neg he] at hx
  exact (copyPage_spec hSb.inv hSb.copy hx).2 (by decide)

theorem copyDir_exposes {pd : ℕ} (hS : Source ret r z) (hw : walk z.vmm.kids r [510, 511] = some pd)
    (hm : z.copyDir ret pd 510 511 = some z') : flat z'.vmm ret stackPage % 8 = 7 := by
  unfold Spaces.copyDir at hm
  have hx : 511 ∈ List.range 512 := by simp
  refine foldlM_exposes hS hx (fun _ _ _ => copyDir_iter)
    (fun b b' hb hSb hx => ?_) hm
  obtain ⟨hne, hw'⟩ := hSb.child (q := []) rfl (hb.keeps.grown.walk r _ pd hS.root (by decide) hw)
  rw [if_neg hne] at hx
  exact copyTable_exposes hSb hw' hx

theorem copyDirPtr_exposes {pdpt : ℕ} (hS : Source ret r z) (hw : walk z.vmm.kids r [510] = some pdpt)
    (hm : z.copyDirPtr ret pdpt 510 = some z') : flat z'.vmm ret stackPage % 8 = 7 := by
  unfold Spaces.copyDirPtr at hm
  have hx : 511 ∈ List.range 512 := by simp
  refine foldlM_exposes hS hx (fun _ _ _ => copyDirPtr_iter)
    (fun b b' hb hSb hx => ?_) hm
  obtain ⟨hne, hw'⟩ := hSb.child (q := [511]) rfl (hb.keeps.grown.walk r _ pdpt hS.root (by decide) hw)
  rw [if_neg hne] at hx
  exact copyDir_exposes hSb hw' hx

theorem copyPml4t_exposes (hS : Source ret r z) (hm : z.copyPml4t ret r = some z') :
    flat z'.vmm ret stackPage % 8 = 7 := by
  unfold Spaces.copyPml4t at hm
  have hx : 510 ∈ List.range 511 := by simp
  refine foldlM_exposes hS hx (fun _ _ _ => copyPml4t_iter)
    (fun b b' hb hSb hx => ?_) hm
  obtain ⟨hne, hw'⟩ := hSb.child (p := []) (q := [511, 511]) rfl rfl
  rw [if_neg hne] at hx
  exact copyDirPtr_exposes hSb hw' hx

/-- **`copy_addr_space`** makes an address space, in which a stack that was mapped is open to the
user. -/
theorem copyAddrSpace_spec (h : SpaceInv z) (hr : r ∈ z.spaces) (hm : z.copyAddrSpace r = some (ret, z')) :
    NewSpace z z' ret ∧ (flat z.vmm r stackPage ≠ 0 → flat z'.vmm ret stackPage % 8 = 7) := by
  unfold Spaces.copyAddrSpace at hm
  rw [if_neg (h.tables.root r (Or.inr hr))] at hm
  obtain ⟨⟨ret', z₁⟩, h1, hm⟩ := Option.bind_eq_some_iff.1 hm
  obtain ⟨z₂, h2, hm⟩ := Option.bind_eq_some_iff.1 hm
  obtain ⟨z₃, h3, hm⟩ := Option.map_eq_some_iff.1 hm
  obtain ⟨rfl, rfl⟩ := Prod.mk.inj hm
  have hN := newPml4t_spec h h1
  have hret : z₁.Root ret' := Or.inr hN.mem
  have hC : Copying ret' z₁ z₂ := foldlM_copying hN.inv hret (fun _ _ _ => copyPml4t_iter) h2
  obtain ⟨k3, s3⟩ := unmapMemory_keeps hC.keeps.inv (hC.root hret) h3
  have hne : ∀ r', z.Root r' → r' ≠ ret' := fun r' hr' e => hN.fresh (e ▸ hr')
  refine ⟨hN.trans (hC.keeps.trans k3) fun r' hr' => ?_, fun h0 => ?_⟩
  · rw [s3 r' (hC.root (hN.root hr')), hC.stack_eq r' (hN.root hr') (hne r' hr')]
  · rw [s3 ret' (hC.root hret)]
    refine copyPml4t_exposes ⟨hN.inv, hret, hN.root (Or.inr hr), hne r (Or.inr hr), ?_⟩ h2
    rw [hN.stack_eq r (Or.inr hr)]
    exact h0

/-! ## Pages of the user -/

/-- The entry is present, and its user bit is set. -/
def UserEntry (e : ℕ) : Prop := e &&& 1 ≠ 0 ∧ e &&& 4 ≠ 0

theorem and_two_pow_ne_zero (e i : ℕ) : e &&& 2 ^ i ≠ 0 ↔ e / 2 ^ i % 2 = 1 := by
  rw [Nat.and_two_pow, Nat.testBit_eq_decide_div_mod_eq]
  by_cases h : e / 2 ^ i % 2 = 1 <;> simp [h]

theorem userEntry_of_mod {e : ℕ} (h : e % 8 = 7) : UserEntry e :=
  ⟨(and_two_pow_ne_zero e 0).2 (by omega), (and_two_pow_ne_zero e 2).2 (by omega)⟩

theorem not_userEntry_of_mod {e : ℕ} (h : e % 8 = 3) : ¬ UserEntry e := by
  rintro ⟨-, h4⟩
  have := (and_two_pow_ne_zero e 2).1 h4
  omega

/-- **A page of the user**: its entries at all four levels are present and have the user bit. -/
def UserPage (v : Vmm) (pml4t vp : ℕ) : Prop :=
  ∃ pdpt pd pt, v.kids pml4t (vp / 512 ^ 3) = some pdpt ∧ v.kids pdpt (vp / 512 ^ 2 % 512) = some pd ∧
    v.kids pd (vp / 512 % 512) = some pt ∧ UserEntry ((v.tab pml4t).entries (vp / 512 ^ 3)) ∧
    UserEntry ((v.tab pdpt).entries (vp / 512 ^ 2 % 512)) ∧ UserEntry ((v.tab pd).entries (vp / 512 % 512)) ∧
    UserEntry ((v.tab pt).entries (vp % 512))

/-- No page of the kernel is a page of the user. -/
def Protected (z : Spaces) : Prop :=
  ∀ r ∈ z.spaces, (∀ vp, vp / 512 ^ 3 = 511 → ¬ UserPage z.vmm r vp) ∧ ¬ UserPage z.vmm r stackPage

/-- The last entry of a PML4T is closed. -/
theorem SpaceInv.slot511 (h : SpaceInv z) (hr : r ∈ z.spaces) {vp : ℕ} (hvp : vp / 512 ^ 3 = 511) :
    ¬ UserPage z.vmm r vp := by
  rintro ⟨_, _, _, -, -, -, hu, -⟩
  rw [hvp] at hu
  exact not_userEntry_of_mod (h.kernel r (Or.inr hr)).2 hu

/-- A stack that is mapped for the kernel. -/
theorem not_userPage_of_mod (h : flat z.vmm r stackPage % 8 = 3) : ¬ UserPage z.vmm r stackPage := by
  rintro ⟨pdpt, pd, pt, h1, h2, h3, -, -, -, hu⟩
  have hw : walk z.vmm.kids r (path stackPage) = some pt := by
    rw [walk_path, h1, Option.bind_some, h2, Option.bind_some, h3]
  rw [flat_of_walk hw] at h
  exact not_userEntry_of_mod h hu

/-- A stack that is mapped for the user: the levels above are open. -/
theorem SpaceInv.userPage_of_mod (h : SpaceInv z) (hr : r ∈ z.spaces) (h7 : flat z.vmm r stackPage % 8 = 7) :
    UserPage z.vmm r stackPage := by
  cases hw : walk z.vmm.kids r (path stackPage) with
  | none =>
    rw [flat_of_none hw] at h7
    cases h7
  | some pt =>
    rw [flat_of_walk hw] at h7
    have hp := path_stackPage
    unfold path at hp
    simp only [List.cons.injEq, and_true] at hp
    rw [walk_path] at hw
    obtain ⟨pdpt, h1, hw⟩ := Option.bind_eq_some_iff.1 hw
    obtain ⟨pd, h2, h3⟩ := Option.bind_eq_some_iff.1 hw
    have w1 := walk_singleton.trans h1
    have w2 : walk z.vmm.kids r ([stackPage / 512 ^ 3] ++ [stackPage / 512 ^ 2 % 512]) = some pd :=
      walk_snoc_eq_some.2 ⟨pdpt, w1, h2⟩
    have hne : stackPage / 512 ^ 3 ≠ 511 := by rw [hp.1]; decide
    refine ⟨pdpt, pd, pt, h1, h2, h3, ?_, ?_, ?_, userEntry_of_mod h7⟩
    · exact userEntry_of_mod (h.opened r hr [] r _ pdpt (by decide) rfl h1 (by simpa using hne))
    · exact userEntry_of_mod (h.opened r hr _ pdpt _ pd (by simp) w1 h2 (by simpa using hne))
    · exact userEntry_of_mod (h.opened r hr _ pd _ pt (by simp) w2 h3 (by simpa using hne))

/-! ## Runs -/

/-- The kernel after it has started, before the first address space is made. -/
structure SpaceInit (z : Spaces) : Prop where
  spaces : z.spaces = []
  tree : PageTree z.vmm z.kpml4
  heap : FreshHeap z.vmm z.kpml4
  kernel : z.vmm.kids z.kpml4 511 = some z.kFirstPdpt
  entry : (z.vmm.tab z.kpml4).entries 511 % 8 = 3

theorem SpaceInit.inv (h : SpaceInit z) : SpaceInv z := by
  have hroot : z.Root = (· = z.kpml4) := by
    funext a
    unfold Spaces.Root
    simp [h.spaces]
  refine ⟨by rw [hroot]; exact h.tree.tables h.heap, ?_, ?_⟩
  · rw [hroot]
    rintro _ rfl
    exact ⟨h.kernel, h.entry⟩
  · rw [h.spaces]
    intro r hr
    cases hr

/-- The calls that open the kernel's stack: every copy, and an accepted file with a segment that
covers the stack. -/
def SpaceEvent.exposes : SpaceEvent → Bool
  | .copy _ => true
  | .loadElf phdrs red => phdrs.all Spaces.accepts && (phdrs.take red).any ElfPhdrEntry.coversStack
  | _ => false

/-- The stack is mapped for the kernel in all address spaces. -/
def StackClosed (z : Spaces) : Prop := ∀ r ∈ z.spaces, flat z.vmm r stackPage % 8 = 3

/-- **What a call does**: it works in the address spaces there are and leaves their stacks alone, or
it makes an address space, whose stack is closed or open. -/
theorem step_cases {e : SpaceEvent} (h : SpaceInv z) (hs : z.step e = some z') :
    (e.exposes = false ∧ Keeps z z' ∧ ∀ r, z.Root r → flat z'.vmm r stackPage = flat z.vmm r stackPage) ∨
      ∃ r, NewSpace z z' r ∧ ((e.exposes = false ∧ flat z'.vmm r stackPage % 8 = 3) ∨
        (e.exposes = true ∧ (StackClosed z → flat z'.vmm r stackPage % 8 = 7))) := by
  cases e with
  | create =>
    obtain ⟨⟨r, z₁⟩, h1, rfl⟩ := Option.map_eq_some_iff.1 hs
    obtain ⟨hN, h3⟩ := createAddressSpace_spec h h1
    exact Or.inr ⟨r, hN, Or.inl ⟨rfl, h3⟩⟩
  | loadElf phdrs red =>
    obtain ⟨⟨n, z₁⟩, h1, rfl⟩ := Option.map_eq_some_iff.1 hs
    have hex : (SpaceEvent.loadElf phdrs red).exposes =
        (phdrs.all Spaces.accepts && (phdrs.take red).any ElfPhdrEntry.coversStack) := rfl
    rw [hex]
    rcases loadElf_spec h h1 with ⟨rfl, he⟩ | ⟨ha, r, hN, hf⟩
    · exact Or.inl ⟨he, h.keeps_refl, fun _ _ => rfl⟩
    · refine Or.inr ⟨r, hN, ?_⟩
      rw [ha, Bool.true_and]
      cases hc : (phdrs.take red).any ElfPhdrEntry.coversStack with
      | true =>
        rw [hc, if_pos rfl] at hf
        exact Or.inr ⟨rfl, fun _ => hf⟩
      | false =>
        rw [hc, if_neg (by decide)] at hf
        exact Or.inl ⟨rfl, hf⟩
  | window r pa =>
    simp only [Spaces.step] at hs
    split_ifs at hs with hr
    obtain ⟨hk, -, ho⟩ := mapMemory_keeps h (Or.inr hr) hs
    exact Or.inl ⟨rfl, hk, fun r' hr' => ho r' hr' (Or.inl (not_covers_window 1))⟩
  | unwindow r =>
    simp only [Spaces.step] at hs
    split_ifs at hs with hr
    exact Or.inl ⟨rfl, unmapMemory_keeps h (Or.inr hr) hs⟩
  | copy r =>
    simp only [Spaces.step] at hs
    split_ifs at hs with hr
    obtain ⟨⟨ret, z₁⟩, h1, rfl⟩ := Option.map_eq_some_iff.1 hs
    obtain ⟨hN, h7⟩ := copyAddrSpace_spec h hr h1
    -- the stack of the source is mapped, so its page is copied, as a user page
    refine Or.inr ⟨ret, hN, Or.inr ⟨rfl, fun hz => h7 fun h0 => ?_⟩⟩
    have h3 := hz r hr
    rw [h0] at h3
    cases h3

theorem SpaceInv.step {e : SpaceEvent} (h : SpaceInv z) (hs : z.step e = some z') : SpaceInv z' := by
  rcases step_cases h hs with ⟨-, hk, -⟩ | ⟨r, hN, -⟩
  · exact hk.inv
  · exact hN.inv

/-- **A call leaves the stack closed everywhere, or opens it in a new address space.** -/
theorem StackClosed.step {e : SpaceEvent} (h : SpaceInv z) (hz : StackClosed z) (hs : z.step e = some z') :
    (e.exposes = false ∧ StackClosed z') ∨
      (e.exposes = true ∧ ∃ r ∈ z'.spaces, flat z'.vmm r stackPage % 8 = 7) := by
  rcases step_cases h hs with ⟨he, hk, ho⟩ | ⟨r, hN, ⟨he, h3⟩ | ⟨he, h7⟩⟩
  · refine Or.inl ⟨he, fun r hr => ?_⟩
    rw [hk.spaces_eq] at hr
    rw [ho r (Or.inr hr)]
    exact hz r hr
  · refine Or.inl ⟨he, fun r' hr' => ?_⟩
    rw [hN.spaces_eq] at hr'
    rcases List.mem_append.1 hr' with hr' | hr'
    · rw [hN.stack_eq r' (Or.inr hr')]
      exact hz r' hr'
    · rw [List.mem_singleton.1 hr']
      exact h3
  · exact Or.inr ⟨he, r, hN.mem, h7 hz⟩

/-- **The last entry of every PML4T is closed to the user**, in every run. -/
theorem slot511_protected (hs : Reach SpaceInit Spaces.step Any z) (hr : r ∈ z.spaces) {vp : ℕ}
    (hvp : vp / 512 ^ 3 = 511) : ¬ UserPage z.vmm r vp := by
  have h := hs.inv (I := SpaceInv) (fun _ h => h.inv) fun _ _ _ h _ hst => h.step hst
  exact h.slot511 hr hvp

/-- **A call keeps the kernel's pages from the user exactly when it does not expose the stack.** -/
theorem protected_step {e : SpaceEvent} (h : SpaceInv z) (hz : StackClosed z) (hs : z.step e = some z') :
    Protected z' ↔ e.exposes = false := by
  have h' := h.step hs
  rcases StackClosed.step h hz hs with ⟨he, hz'⟩ | ⟨he, r, hr, h7⟩
  · exact iff_of_true (fun r hr => ⟨fun vp hvp => h'.slot511 hr hvp, not_userPage_of_mod (hz' r hr)⟩) he
  · refine iff_of_false (fun hp => (hp r hr).2 (h'.userPage_of_mod hr h7)) ?_
    rw [he]
    decide

/-- **Kernel pages and the user.** In a run in which nothing is copied, and no loaded file has a
segment over the kernel's stack, no page below the last entry of a PML4T and no kernel's
stack is a page of the user, in any address space; and the next call keeps it so exactly
when it is not such a call either. -/
theorem kernel_pages_protected (hs : Reach SpaceInit Spaces.step (fun _ e => e.exposes = false) z) :
    (∀ r ∈ z.spaces, (∀ vp, vp / 512 ^ 3 = 511 → ¬ UserPage z.vmm r vp) ∧ ¬ UserPage z.vmm r stackPage) ∧
      ∀ e z', z.step e = some z' → (Protected z' ↔ e.exposes = false) := by
  have h : SpaceInv z ∧ StackClosed z := by
    refine hs.inv (I := fun z => SpaceInv z ∧ StackClosed z) (fun z h => ⟨h.inv, ?_⟩) fun z e z' h he hst => ?_
    · intro r hr
      rw [h.spaces] at hr
      cases hr
    · refine ⟨h.1.step hst, ?_⟩
      rcases StackClosed.step h.1 h.2 hst with ⟨-, hz⟩ | ⟨he', -⟩
      · exact hz
      · rw [he] at he'
        cases he'
  exact ⟨fun r hr => ⟨fun vp hvp => h.1.slot511 hr hvp, not_userPage_of_mod (h.2 r hr)⟩,
    fun e z' hst => protected_step h.1 h.2 hst⟩

/-! ## A run -/

/-- The kernel's PML4T and PDPT, 4 MiB of free memory, and a page heap that is free. -/
def bootedSpaces : Spaces where
  vmm :=
    { tab := fun t =>
        if t = 0xFFFFFFFF80300000 then
          ⟨fun i => if i = 511 then 0x303003 else 0, fun i => if i = 511 then 0xFFFFFFFF80303000 else 0, 0x300000⟩
        else if t = 0xFFFFFFFF80303000 then ⟨fun _ => 0, fun _ => 0, 0x303000⟩
        else ⟨fun _ => 0, fun _ => 0, 0⟩
      pageHeapBegin := 0xFFFFFFFF90000000
      pageHeapPhys := 0x800000
      pageHeapBitmapLength := 0x2000
      pageHeapBitmap := fun _ => 0 }
  mem := ⟨fun _ => ⟨0x400, 0x400⟩, 1, fun _ => 0⟩
  page := fun _ _ => 0
  cr3 := 0xFFFFFFFF80300000
  kpml4 := 0xFFFFFFFF80300000
  kFirstPdpt := 0xFFFFFFFF80303000
  spaces := []

theorem kids_bootedSpaces {t i : ℕ} : bootedSpaces.vmm.kids t i =
    if t = 0xFFFFFFFF80300000 ∧ i = 511 then some 0xFFFFFFFF80303000 else none := by
  unfold Vmm.kids bootedSpaces NULL
  by_cases ht : t = 0xFFFFFFFF80300000
  · by_cases hi : i = 511 <;> simp [ht, hi]
  · by_cases ht' : t = 0xFFFFFFFF80303000 <;> simp [ht, ht']

/-- The two structures, at their paths. -/
theorem walk_bootedSpaces {p : List ℕ} {a : ℕ} (h : walk bootedSpaces.vmm.kids 0xFFFFFFFF80300000 p = some a) :
    (p = [] ∧ a = 0xFFFFFFFF80300000) ∨ (p = [511] ∧ a = 0xFFFFFFFF80303000) := by
  cases p with
  | nil => exact Or.inl ⟨rfl, (Option.some.inj h).symm⟩
  | cons i p =>
    rw [walk_cons, kids_bootedSpaces] at h
    split_ifs at h with hi
    · cases p with
      | nil =>
        rw [hi.2]
        exact Or.inr ⟨rfl, (Option.some.inj h).symm⟩
      | cons j p =>
        rw [Option.bind_some, walk_cons, kids_bootedSpaces, if_neg (by omega)] at h
        cases h
    · cases h

theorem spaceInit_bootedSpaces : SpaceInit bootedSpaces := by
  refine ⟨rfl, ⟨by decide, fun p q n _ _ h1 h2 => ?_, fun p t i n _ ht hn => ?_⟩,
    ⟨fun j _ p _ h => ?_, by decide, by decide, by decide⟩, by rw [kids_bootedSpaces]; rfl, by decide⟩
  · rcases walk_bootedSpaces h1 with ⟨rfl, rfl⟩ | ⟨rfl, rfl⟩ <;>
      rcases walk_bootedSpaces h2 with ⟨rfl, h⟩ | ⟨rfl, h⟩ <;> first | rfl | omega
  · rw [kids_bootedSpaces] at hn
    split_ifs at hn with h
    obtain ⟨rfl, rfl⟩ := h
    obtain rfl := Option.some.inj hn
    rcases walk_bootedSpaces ht with ⟨rfl, -⟩ | ⟨-, h⟩
    · unfold Carries
      decide
    · omega
  · have hslot : bootedSpaces.vmm.pageStructAt j = 0xFFFFFFFF90000000 + 0x2000 + j * 0x3000 := rfl
    rcases walk_bootedSpaces h with ⟨-, h⟩ | ⟨-, h⟩ <;> omega

/-- An address space is made. -/
theorem kernel_pages_protected_create : ∃ z, Reach SpaceInit Spaces.step (fun _ e => e.exposes = false) z ∧
    z.spaces = [0xFFFFFFFF90002000] ∧ ¬ UserPage z.vmm 0xFFFFFFFF90002000 stackPage := by
  have hrun : (run Spaces.step (fun _ e => !e.exposes) bootedSpaces [.create]).map (·.spaces) =
      some [0xFFFFFFFF90002000] := by decide +kernel
  obtain ⟨z, hz, hsp⟩ := Option.map_eq_some_iff.1 hrun
  have hs : Reach SpaceInit Spaces.step (fun _ e => e.exposes = false) z :=
    (Reach.init spaceInit_bootedSpaces).run (fun _ _ h => by simpa using h) _ hz
  exact ⟨z, hs, hsp, ((kernel_pages_protected hs).1 _ (by rw [hsp]; simp)).2⟩

/-- **The kernel's stack is exposed**: an address space is made and copied, as `fork` does it. -/
theorem kernel_stack_exposed : ∃ z, Reach SpaceInit Spaces.step Any z ∧
    ∃ r ∈ z.spaces, UserPage z.vmm r stackPage := by
  have hrun : ((bootedSpaces.step .create).bind fun z => z.step (.copy 0xFFFFFFFF90002000)).isSome = true := by
    decide +kernel
  obtain ⟨z', hz'⟩ := Option.isSome_iff_exists.1 hrun
  obtain ⟨z, hz, hc⟩ := Option.bind_eq_some_iff.1 hz'
  have h0 := spaceInit_bootedSpaces
  have h1 := h0.inv.step hz
  have hclosed : StackClosed z := by
    rcases StackClosed.step h0.inv (fun r hr => by cases hr) hz with ⟨-, h⟩ | ⟨h, -⟩
    · exact h
    · cases h
  rcases StackClosed.step h1 hclosed hc with ⟨h, -⟩ | ⟨-, r, hr, h7⟩
  · cases h
  · have hs : Reach SpaceInit Spaces.step Any z' :=
      .step (.step (.init h0) trivial hz) trivial hc
    exact ⟨z', hs, r, hr, (h1.step hc).userPage_of_mod hr h7⟩

end Nettapus
