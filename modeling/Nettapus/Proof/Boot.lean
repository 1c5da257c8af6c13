import Nettapus.Code.Boot
import Nettapus.Proof.Isolation

/-!
# The memory manager after `init_memory`

`init_vmm` begins with structures that the linker has put into the kernel's binary (`KernelImage.Ok`), and with no page heap.
The structures are a forest already (`KernelLinked.walk_mem`), and the first ranges are mapped without the page heap
(`mapMemory_initPageHeap`), so it makes no difference when the page heap is set up.
-/

namespace Nettapus

open Forest Runs

variable {k : KernelImage} {v : Vmm} {z z' : Spaces} {p : List ℕ} {a t i n vp r : ℕ}

/-! ## The structures of the kernel -/

/-- The structures, and the paths to them. -/
def KernelImage.forest (k : KernelImage) : List (List ℕ × ℕ) :=
  [([], k.kpml4), ([511], k.kFirstPdpt), ([511, 510], k.kFirstPd), ([511, 510, 1], k.kFirstTable), ([511, 510, 128], k.kSecTable)]

theorem KernelImage.forest_length (k : KernelImage) (h : (p, a) ∈ k.forest) : p.length ≤ 3 := by
  unfold KernelImage.forest at h
  simp only [List.mem_cons, Prod.mk.injEq, List.not_mem_nil, or_false] at h
  rcases h with ⟨rfl, -⟩ | ⟨rfl, -⟩ | ⟨rfl, -⟩ | ⟨rfl, -⟩ | ⟨rfl, -⟩ <;> decide

def KernelImage.structs (k : KernelImage) : List ℕ := k.forest.map Prod.snd

/-- **The linker does its work**: the structures are in the 2 MiB of the kernel's binary, aligned, and apart. -/
structure KernelImage.Ok (k : KernelImage) : Prop where
  nodup : k.structs.Nodup
  aligned : ∀ a ∈ k.structs, a % 0x1000 = 0
  inside : ∀ a ∈ k.structs, kernelVirtBase + kernelPhysBase ≤ a ∧ a < kernelVirtBase + kernelPhysBase + 0x200000

/-- An entry of the kernel. -/
def kernelEntry (a : ℕ) : ℕ := (a - kernelVirtBase) ||| 2 ||| 1

/-- **The structures after the assignments.** -/
structure KernelLinked (k : KernelImage) (v : Vmm) : Prop where
  kpml4 : v.tab k.kpml4 = ⟨Function.update (fun _ => 0) 511 (kernelEntry k.kFirstPdpt),
    Function.update (fun _ => 0) 511 k.kFirstPdpt, k.kpml4 - kernelVirtBase⟩
  pdpt : v.tab k.kFirstPdpt = ⟨Function.update (fun _ => 0) 510 (kernelEntry k.kFirstPd),
    Function.update (fun _ => 0) 510 k.kFirstPd, k.kFirstPdpt - kernelVirtBase⟩
  pd : v.tab k.kFirstPd =
    ⟨Function.update (Function.update (fun _ => 0) 1 (kernelEntry k.kFirstTable)) 128 (kernelEntry k.kSecTable),
      Function.update (Function.update (fun _ => 0) 1 k.kFirstTable) 128 k.kSecTable, k.kFirstPd - kernelVirtBase⟩
  table : v.tab k.kFirstTable = ⟨fun _ => 0, Function.update (fun _ => 0) 0 (k.kFirstTable - kernelVirtBase), 0⟩
  table' : v.tab k.kSecTable = ⟨fun _ => 0, Function.update (fun _ => 0) 0 (k.kSecTable - kernelVirtBase), 0⟩

theorem KernelImage.Ok.ne_null (hk : k.Ok) (ha : a ∈ k.structs) : a ≠ NULL := by
  have h := (hk.inside a ha).1
  rintro rfl
  revert h
  decide

/-- The children of the structures. -/
theorem KernelLinked.kids_kpml4 (h : KernelLinked k v) (hk : k.Ok) : v.kids k.kpml4 i = if i = 511 then some k.kFirstPdpt else none := by
  have hne := hk.ne_null (a := k.kFirstPdpt) (by simp [KernelImage.structs, KernelImage.forest])
  unfold Vmm.kids
  rw [h.kpml4]
  by_cases hi : i = 511
  · simp [hi, hne]
  · simp [hi, NULL]

theorem KernelLinked.kids_pdpt (h : KernelLinked k v) (hk : k.Ok) : v.kids k.kFirstPdpt i = if i = 510 then some k.kFirstPd else none := by
  have hne := hk.ne_null (a := k.kFirstPd) (by simp [KernelImage.structs, KernelImage.forest])
  unfold Vmm.kids
  rw [h.pdpt]
  by_cases hi : i = 510
  · simp [hi, hne]
  · simp [hi, NULL]

theorem KernelLinked.kids_pd (h : KernelLinked k v) (hk : k.Ok) : v.kids k.kFirstPd i =
    if i = 1 then some k.kFirstTable else if i = 128 then some k.kSecTable else none := by
  have hne := hk.ne_null (a := k.kFirstTable) (by simp [KernelImage.structs, KernelImage.forest])
  have hne' := hk.ne_null (a := k.kSecTable) (by simp [KernelImage.structs, KernelImage.forest])
  unfold Vmm.kids
  rw [h.pd]
  by_cases hi : i = 1
  · simp [hi, hne]
  · by_cases hi' : i = 128
    · simp [hi', hne']
    · simp [hi, hi', NULL]

/-- **The forest of the kernel**, by its paths. -/
theorem KernelLinked.walk_mem (h : KernelLinked k v) (hk : k.Ok) (hp : p.length ≤ 3) (hw : walk v.kids k.kpml4 p = some a) :
    (p, a) ∈ k.forest := by
  unfold KernelImage.forest
  simp only [List.mem_cons, Prod.mk.injEq, List.not_mem_nil, or_false]
  rcases p with _ | ⟨i, _ | ⟨j, _ | ⟨l, _ | ⟨m, p⟩⟩⟩⟩
  · exact Or.inl ⟨rfl, (Option.some.inj hw).symm⟩
  · rw [walk_cons, h.kids_kpml4 hk] at hw
    split_ifs at hw with hi
    · exact Or.inr (Or.inl ⟨by rw [hi], (Option.some.inj hw).symm⟩)
    · cases hw
  · rw [walk_cons, h.kids_kpml4 hk] at hw
    split_ifs at hw with hi
    · rw [Option.bind_some, walk_cons, h.kids_pdpt hk] at hw
      split_ifs at hw with hj
      · exact Or.inr (Or.inr (Or.inl ⟨by rw [hi, hj], (Option.some.inj hw).symm⟩))
      · cases hw
    · cases hw
  · rw [walk_cons, h.kids_kpml4 hk] at hw
    split_ifs at hw with hi
    · rw [Option.bind_some, walk_cons, h.kids_pdpt hk] at hw
      split_ifs at hw with hj
      · rw [Option.bind_some, walk_cons, h.kids_pd hk] at hw
        split_ifs at hw with hl hl'
        · exact Or.inr (Or.inr (Or.inr (Or.inl ⟨by rw [hi, hj, hl], (Option.some.inj hw).symm⟩)))
        · exact Or.inr (Or.inr (Or.inr (Or.inr ⟨by rw [hi, hj, hl'], (Option.some.inj hw).symm⟩)))
        · cases hw
      · cases hw
    · cases hw
  · simp only [List.length_cons] at hp
    omega

theorem KernelLinked.walk_cases (h : KernelLinked k v) (hk : k.Ok) (hp : p.length ≤ 3) (hw : walk v.kids k.kpml4 p = some a) :
    (p = [] ∧ a = k.kpml4) ∨ (p = [511] ∧ a = k.kFirstPdpt) ∨ (p = [511, 510] ∧ a = k.kFirstPd) ∨
      (p = [511, 510, 1] ∧ a = k.kFirstTable) ∨ (p = [511, 510, 128] ∧ a = k.kSecTable) := by
  have hm := h.walk_mem hk hp hw
  unfold KernelImage.forest at hm
  simpa only [List.mem_cons, Prod.mk.injEq, List.not_mem_nil, or_false] using hm

/-- The edges. -/
theorem KernelLinked.edge_cases (h : KernelLinked k v) (hk : k.Ok) (hp : p.length < 3) (ht : walk v.kids k.kpml4 p = some t)
    (hn : v.kids t i = some n) : (p = [] ∧ t = k.kpml4 ∧ i = 511 ∧ n = k.kFirstPdpt) ∨
      (p = [511] ∧ t = k.kFirstPdpt ∧ i = 510 ∧ n = k.kFirstPd) ∨
      (p = [511, 510] ∧ t = k.kFirstPd ∧ i = 1 ∧ n = k.kFirstTable) ∨
      (p = [511, 510] ∧ t = k.kFirstPd ∧ i = 128 ∧ n = k.kSecTable) := by
  rcases h.walk_cases hk hp.le ht with ⟨rfl, rfl⟩ | ⟨rfl, rfl⟩ | ⟨rfl, rfl⟩ | ⟨rfl, rfl⟩ | ⟨rfl, rfl⟩
  · rw [h.kids_kpml4 hk] at hn
    split_ifs at hn with hi
    exact Or.inl ⟨rfl, rfl, hi, (Option.some.inj hn).symm⟩
  · rw [h.kids_pdpt hk] at hn
    split_ifs at hn with hi
    exact Or.inr (Or.inl ⟨rfl, rfl, hi, (Option.some.inj hn).symm⟩)
  · rw [h.kids_pd hk] at hn
    split_ifs at hn with hi hi'
    · exact Or.inr (Or.inr (Or.inl ⟨rfl, rfl, hi, (Option.some.inj hn).symm⟩))
    · exact Or.inr (Or.inr (Or.inr ⟨rfl, rfl, hi', (Option.some.inj hn).symm⟩))
  · exact absurd hp (by decide)
  · exact absurd hp (by decide)

/-! ## The page heap is set up -/

/-- Where the page tables are there, `map_memory` takes nothing from the page heap. -/
theorem mapLoop_initPageHeap (b : ℕ) {u : ℕ} : ∀ n (v : Vmm) (pa vp pt : ℕ), vp + n ≤ 2 ^ 36 →
    (∀ j < n, ∃ pt, walk v.kids r (path (vp + j)) = some pt) →
    Vmm.mapLoop r u n (v.initPageHeap b) pa (vp * 0x1000) pt =
      (Vmm.mapLoop r u n v pa (vp * 0x1000) pt).map fun v => v.initPageHeap b := by
  intro n
  induction n with
  | zero => exact fun v pa vp pt _ _ => rfl
  | succ n ih =>
    intro v pa vp pt hvp hw
    obtain ⟨pt₀, hw₀⟩ := hw 0 (Nat.succ_pos n)
    rw [Nat.add_zero] at hw₀
    have hva : u64 (vp * 0x1000 + 0x1000) = (vp + 1) * 0x1000 := by unfold u64; omega
    have hnext : ∀ pt e, ∀ j < n, ∃ pt', walk (v.setEntry pt (vp * 0x1000 % 0x200000 / 0x1000) e).kids r (path (vp + 1 + j)) =
        some pt' := by
      intro pt e j hj
      obtain ⟨pt', hw'⟩ := hw (j + 1) (by omega)
      have hj' : vp + 1 + j = vp + (j + 1) := by omega
      rw [kids_setEntry, hj']
      exact ⟨pt', hw'⟩
    have hfind : v.findTable r (vp * 0x1000) = some (pt₀, v) := findTable_of_walk hw₀
    have hfind' : (v.initPageHeap b).findTable r (vp * 0x1000) = some (pt₀, v.initPageHeap b) := findTable_of_walk hw₀
    unfold Vmm.mapLoop
    rw [hfind, hfind', hva]
    split_ifs
    · exact ih _ _ (vp + 1) pt₀ (by omega) (hnext pt₀ _)
    · exact ih _ _ (vp + 1) pt (by omega) (hnext pt _)

/-- So the page heap can be set up before or after. -/
theorem mapMemory_initPageHeap (b : ℕ) {pa va amount u : ℕ} (hr : r ≠ NULL) (hn : 0 < amount)
    (hva : va % 2 ^ 48 / 0x1000 + amount ≤ 2 ^ 36)
    (hw : ∀ j < amount, ∃ pt, walk v.kids r (path (va % 2 ^ 48 / 0x1000 + j)) = some pt) :
    (v.initPageHeap b).mapMemory pa va amount r u = (v.mapMemory pa va amount r u).map fun p => (p.1, p.2.initPageHeap b) := by
  obtain ⟨pt, hw₀⟩ := hw 0 hn
  rw [Nat.add_zero] at hw₀
  have hfind : v.findTable r (va % 2 ^ 48 / 0x1000 * 0x1000) = some (pt, v) := findTable_of_walk hw₀
  have hfind' : (v.initPageHeap b).findTable r (va % 2 ^ 48 / 0x1000 * 0x1000) = some (pt, v.initPageHeap b) :=
    findTable_of_walk hw₀
  unfold Vmm.mapMemory
  rw [if_neg hr, if_neg hr, and_page]
  dsimp only
  rw [hfind, hfind', Option.bind_some, Option.bind_some, mapLoop_initPageHeap b amount v _ _ pt hva hw, Option.map_map,
    Option.map_map]
  rfl

/-! ## The state after the assignments -/

/-- Where the structures are in memory. -/
theorem KernelImage.Ok.phys (hk : k.Ok) (ha : a ∈ k.structs) : a = (a - kernelVirtBase) + kernelVirtBase ∧
    (a - kernelVirtBase) % 0x1000 = 0 ∧ 0x200000 ≤ a - kernelVirtBase ∧ a - kernelVirtBase < 0x400000 := by
  have h1 := hk.aligned a ha
  obtain ⟨h2, h3⟩ := hk.inside a ha
  unfold kernelVirtBase kernelPhysBase at *
  omega

theorem KernelImage.Ok.entry (hk : k.Ok) (ha : a ∈ k.structs) : kernelEntry a = (a - kernelVirtBase) + 3 :=
  or_three (hk.phys ha).2.1

/-- Page tables without entries. -/
theorem KernelLinked.flat_eq (h : KernelLinked k v) (hk : k.Ok) (vp : ℕ) : flat v k.kpml4 vp = 0 := by
  cases hw : walk v.kids k.kpml4 (path vp) with
  | none => exact flat_of_none hw
  | some a =>
    have hlen := length_path vp
    rw [flat_of_walk hw]
    rcases h.walk_cases hk le_rfl hw with ⟨hp, -⟩ | ⟨hp, -⟩ | ⟨hp, -⟩ | ⟨-, rfl⟩ | ⟨-, rfl⟩
    · simp [hp] at hlen
    · simp [hp] at hlen
    · simp [hp] at hlen
    · rw [h.table]
    · rw [h.table']

/-- **An edge**: the entry has the address of the child. -/
theorem KernelLinked.edge (h : KernelLinked k v) (hk : k.Ok) (hp : p.length < 3) (ht : walk v.kids k.kpml4 p = some t)
    (hn : v.kids t i = some n) :
    n ∈ k.structs ∧ (v.tab t).entries i = kernelEntry n ∧ v.physAt (p.length + 1) n = n - kernelVirtBase := by
  unfold Vmm.physAt PageStruct.tablePhysicalAddress
  rcases h.edge_cases hk hp ht hn with ⟨rfl, rfl, rfl, rfl⟩ | ⟨rfl, rfl, rfl, rfl⟩ | ⟨rfl, rfl, rfl, rfl⟩ | ⟨rfl, rfl, rfl, rfl⟩
  · rw [h.kpml4, h.pdpt, if_neg (by decide)]
    dsimp only
    rw [Function.update_self]
    exact ⟨by simp [KernelImage.structs, KernelImage.forest], rfl, rfl⟩
  · rw [h.pdpt, h.pd, if_neg (by decide)]
    dsimp only
    rw [Function.update_self]
    exact ⟨by simp [KernelImage.structs, KernelImage.forest], rfl, rfl⟩
  · rw [h.pd, h.table, if_pos (by decide)]
    dsimp only
    rw [Function.update_of_ne (by decide), Function.update_self, Function.update_self]
    exact ⟨by simp [KernelImage.structs, KernelImage.forest], rfl, rfl⟩
  · rw [h.pd, h.table', if_pos (by decide)]
    dsimp only
    rw [Function.update_self, Function.update_self]
    exact ⟨by simp [KernelImage.structs, KernelImage.forest], rfl, rfl⟩

/-- Where there is no child, there is no entry. -/
theorem KernelLinked.no_edge (h : KernelLinked k v) (hk : k.Ok) (hp : p.length < 3) (ht : walk v.kids k.kpml4 p = some t)
    (hn : v.kids t i = none) : (v.tab t).entries i = 0 := by
  rcases h.walk_cases hk hp.le ht with ⟨rfl, rfl⟩ | ⟨rfl, rfl⟩ | ⟨rfl, rfl⟩ | ⟨rfl, rfl⟩ | ⟨rfl, rfl⟩
  · rw [h.kids_kpml4 hk] at hn
    split_ifs at hn with hi
    rw [h.kpml4]
    dsimp only
    rw [Function.update_of_ne hi]
  · rw [h.kids_pdpt hk] at hn
    split_ifs at hn with hi
    rw [h.pdpt]
    dsimp only
    rw [Function.update_of_ne hi]
  · rw [h.kids_pd hk] at hn
    split_ifs at hn with hi hi'
    rw [h.pd]
    dsimp only
    rw [Function.update_of_ne hi', Function.update_of_ne hi]
  · exact absurd hp (by decide)
  · exact absurd hp (by decide)

/-- **The forest is a tree**, and its entries lead where its children lead. -/
theorem KernelLinked.pageTree (h : KernelLinked k v) (hk : k.Ok) : PageTree v k.kpml4 := by
  refine ⟨hk.ne_null (by simp [KernelImage.structs, KernelImage.forest]), fun p q n hp hq h1 h2 => ?_,
    fun p t i n hp ht hn => ?_⟩
  · have heq := List.inj_on_of_nodup_map hk.nodup (h.walk_mem hk hp h1) (h.walk_mem hk hq h2) rfl
    exact (Prod.mk.inj heq).1
  · obtain ⟨hmem, he, hphys⟩ := h.edge hk hp ht hn
    have hal := (hk.phys hmem).2.1
    unfold Carries
    rw [he, hphys, hk.entry hmem]
    omega

/-- The page heap is set up, and all of its slots are free. -/
structure HeapSetUp (v : Vmm) (b : ℕ) : Prop where
  begin_eq : v.pageHeapBegin = kernelVirtBase + 0x10000000
  phys_eq : v.pageHeapPhys = b * 0x1000
  length_eq : v.pageHeapBitmapLength = 0x2000
  clear : ∀ j < 0x10000, Bitmap.test v.pageHeapBitmap j = false

/-- The structures of the kernel are before the slots. -/
theorem HeapSetUp.before {b : ℕ} (h : HeapSetUp v b) (hk : k.Ok) (ha : a ∈ k.structs) : a < v.pageHeapFirst := by
  obtain ⟨h1, -, -, h2⟩ := hk.phys ha
  unfold Vmm.pageHeapFirst
  rw [h.begin_eq]
  omega

theorem KernelLinked.node_mem (h : KernelLinked k v) (hk : k.Ok) (hp : p.length ≤ 3) (hw : walk v.kids k.kpml4 p = some a) :
    a ∈ k.structs := List.mem_map.2 ⟨(p, a), h.walk_mem hk hp hw, rfl⟩

theorem HeapSetUp.freshHeap {b : ℕ} (h : HeapSetUp v b) (hL : KernelLinked k v) (hk : k.Ok) : FreshHeap v k.kpml4 := by
  refine ⟨fun j _ p hp hw => ?_, ?_, ?_, ?_⟩
  · have hlt := h.before hk (hL.node_mem hk hp hw)
    rw [pageStructAt_eq] at hlt
    omega
  · rw [h.begin_eq]
    exact Nat.lt_add_left _ (by decide)
  · rw [h.phys_eq]
    omega
  · rw [h.length_eq]

/-- A structure of the kernel, which is in memory before the page heap. -/
theorem HeapSetUp.placed {b : ℕ} (h : HeapSetUp v b) (hk : k.Ok) (hb : 1024 ≤ b) (ha : a ∈ k.structs) :
    v.Placed a (a - kernelVirtBase) := by
  obtain ⟨h1, h2, -, h3⟩ := hk.phys ha
  refine Or.inr ⟨h1, h2, h3.trans (by decide), Or.inl ?_⟩
  rw [h.phys_eq]
  omega

/-- **The entries lead the processor** where the children lead the kernel. -/
theorem HeapSetUp.laid {b : ℕ} (h : HeapSetUp v b) (hL : KernelLinked k v) (hk : k.Ok) (hb : 1024 ≤ b) (hlt : b + 1024 ≤ pageLimit) :
    Laid (· = k.kpml4) v := by
  refine ⟨⟨?_, ?_, ?_, ?_, ?_⟩, ?_⟩
  · rintro r rfl
    have hmem : k.kpml4 ∈ k.structs := by simp [KernelImage.structs, KernelImage.forest]
    rw [hL.kpml4]
    exact h.placed hk hb hmem
  · rintro r p t i n rfl hp ht hn
    obtain ⟨hmem, -, hphys⟩ := hL.edge hk hp ht hn
    rw [hphys]
    exact h.placed hk hb hmem
  · rintro r p t i n rfl hp ht hn
    obtain ⟨hmem, he, -⟩ := hL.edge hk hp ht hn
    have hal := (hk.phys hmem).2.1
    rw [he, hk.entry hmem]
    omega
  · rintro r p t i rfl hp ht - hn
    exact hL.no_edge hk hp ht hn
  · rw [h.phys_eq]
    unfold pageLimit at hlt
    unfold Vmm.pageHeapLength
    omega
  · rintro n ⟨r, p, rfl, hp, hw⟩
    exact Or.inl (h.before hk (hL.node_mem hk hp hw))

end Nettapus
