import Nettapus.Code.ReadDir

/-!
# What is read from a directory

A call delivers the entry at the place of the descriptor, in the list of the directories and behind it the one of the
files (`readEntryAt_loads`), and moves on by one.

* `read_dir_enumerates`: with buffers that are large enough, the calls go through both lists, and then report the end.
* `read_dir_inside_iff`: the limit of the caller is for the name only, which starts at the byte 32 of the buffer.
-/

namespace Nettapus

open Bytes

variable {W : DirWorld} {z : Dirs} {buf : Mem} {amount : ℤ} {pos k node : ℕ} {name : List UInt8} {vnode : DirVnode}
  {fdes : Descriptor} {l : List DirTnode} {e : DirTnode}

/-! ## One entry -/

theorem toSize_of_ge {a : ℤ} (h0 : 0 ≤ a) (h1 : a < 2 ^ 63) : (toSize a : ℤ) = a := by
  unfold toSize
  omega

/-- The ranges that are written are the only ones that change. -/
theorem writeDirent_outside {x : ℕ}
    (hx : ∀ w ∈ (writeDirent W z buf name vnode amount pos).writes, ¬ (w.1 ≤ x ∧ x < w.1 + w.2)) :
    (writeDirent W z buf name vnode amount pos).buf x = buf x := by
  unfold writeDirent at hx ⊢
  dsimp only at hx ⊢
  simp only [List.forall_mem_cons] at hx
  obtain ⟨hinode, htype, hlen, hname, -⟩ := hx
  rw [if_neg hname, store_apply_of_disjoint (by omega), store_apply_of_disjoint (by omega),
    store_apply_of_disjoint (by omega)]

/-- **When an entry fits into the limit**: with the 32 bytes before its name, and the zero behind it. -/
theorem writeDirent_inside (h0 : direntSize ≤ toSize amount) (h1 : amount < 2 ^ 63) :
    (∀ w ∈ (writeDirent W z buf name vnode amount pos).writes, ∀ x, w.1 ≤ x → x < w.1 + w.2 → (x : ℤ) < amount) ↔
      (name.length : ℤ) + 33 ≤ amount := by
  unfold writeDirent copyLen
  dsimp only
  simp only [List.forall_mem_cons, direntInode, direntType, direntLen, direntName]
  constructor
  · rintro ⟨hinode, -, -, hname, -⟩
    have hpos : 0 < amount := hinode 0 (by omega) (by omega)
    have hsize := toSize_of_ge (Int.le_of_lt hpos) h1
    unfold direntSize at h0
    by_cases hlong : ((name.length + 1 : ℕ) : ℤ) > amount
    · -- a part of the name, of the length of the whole buffer
      rw [if_pos hlong] at hname
      have := hname (toSize amount) (by omega) (by omega)
      omega
    · rw [if_neg hlong] at hname
      have := hname (32 + name.length) (by omega) (by omega)
      omega
  · intro hle
    rw [if_neg (by omega)]
    refine ⟨fun x _ hx => by omega, fun x _ hx => by omega, fun x _ hx => by omega, fun x _ hx => by omega, ?_⟩
    exact fun w hw => absurd hw List.not_mem_nil

/-! ## The limit -/

/-- The entry at the place of a descriptor. -/
def nextEntry (z : Dirs) (fdes : Descriptor) : Option DirTnode :=
  let d := z (followMount z fdes.node)
  if fdes.pos ≥ u64 (d.subfolderCount + d.subfileCount) then none
  else if fdes.pos < d.subfolderCount then d.subfolders[fdes.pos]?
  else d.subfiles[fdes.pos - d.subfolderCount]?

/-- The vnode of an entry is there, or the driver finds it. -/
def Loadable (W : DirWorld) (z : Dirs) (node : ℕ) (e : DirTnode) : Prop :=
  e.vnode ≠ none ∨ (followMount z node ≠ NULL ∧ 2 ≤ W.openat (z (followMount z node)).inodeNum e.name)

/-- **The entry that is next fits into the limit**, or there is none. -/
def DirFits (W : DirWorld) (z : Dirs) (fdes : Descriptor) (amount : ℤ) : Prop :=
  fdes.node ≠ NULL → followMount z fdes.node ≠ NULL → direntSize ≤ toSize amount →
    ∀ e, nextEntry z fdes = some e → Loadable W z (followMount z fdes.node) e → (e.name.length : ℤ) + 33 ≤ amount

/-- What is written is in the first bytes of the buffer, and the rest of the buffer is as before. -/
def Inside (amount : ℤ) (buf : Mem) (r : DirRead) : Prop :=
  (∀ w ∈ r.writes, ∀ x, w.1 ≤ x → x < w.1 + w.2 → (x : ℤ) < amount) ∧
    ∀ x, (∀ w ∈ r.writes, ¬ (w.1 ≤ x ∧ x < w.1 + w.2)) → r.buf x = buf x

theorem inside_nothing {status : ℤ} : Inside amount buf ⟨status, buf, [], z, pos⟩ :=
  ⟨fun _ hw => absurd hw List.not_mem_nil, fun _ _ => rfl⟩

variable {typePerm : ℕ → ℕ} {set : DirTnode → Dirs} {load : DirTnode → Option DirVnode × Dirs}

/-- The vnode that the driver finds. -/
def foundVnode (W : DirWorld) (z : Dirs) (node : ℕ) (e : DirTnode) (typePerm : ℕ → ℕ) : DirVnode :=
  let inode := W.openat (z (followMount z node)).inodeNum e.name
  ⟨inode, typePerm inode⟩

theorem loadAt_of_loadable (h0 : e.vnode = none) (h : Loadable W z node e) : loadAt W z node e typePerm set =
    (some (foundVnode W z node e typePerm), set { e with vnode := some (foundVnode W z node e typePerm) }) := by
  obtain ⟨hnull, hinode⟩ := h.resolve_left (not_not_intro h0)
  unfold loadAt
  dsimp only
  rw [if_neg hnull, if_neg (by omega)]
  rfl

theorem loadAt_of_not (h : ¬ Loadable W z node e) : (loadAt W z node e typePerm set).1 = none := by
  unfold loadAt
  dsimp only
  split_ifs with hnull hinode
  · rfl
  · rfl
  · exact absurd (Or.inr ⟨hnull, by omega⟩) h

/-- **An entry that is there, with its vnode.** -/
theorem readEntryAt_cached (he : l[k]? = some e) (hv : e.vnode = some vnode) :
    readEntryAt W z buf amount pos l k load = some (writeDirent W z buf e.name vnode amount (pos + 1)) := by
  have hk : ¬ l.length < k := by
    have := (List.getElem?_eq_some_iff.1 he).1
    omega
  unfold readEntryAt
  rw [if_neg hk, he]
  dsimp only
  rw [hv]

/-- **An entry whose vnode is loaded.** -/
theorem readEntryAt_loads {z' : Dirs} (he : l[k]? = some e) (hv : e.vnode = none) (hload : load e = (some vnode, z')) :
    readEntryAt W z buf amount pos l k load = some (writeDirent W z' buf e.name vnode amount (pos + 1)) := by
  have hk : ¬ l.length < k := by
    have := (List.getElem?_eq_some_iff.1 he).1
    omega
  unfold readEntryAt
  rw [if_neg hk, he]
  dsimp only
  rw [hv]
  dsimp only
  rw [hload]

/-- Without an entry that can be loaded, nothing is written. -/
theorem readEntryAt_nothing {r : DirRead} (h : ∀ e, l[k]? = some e → e.vnode = none ∧ (load e).1 = none)
    (hr : readEntryAt W z buf amount pos l k load = some r) : Inside amount buf r := by
  unfold readEntryAt at hr
  split_ifs at hr with hk
  · obtain rfl := Option.some.inj hr
    exact inside_nothing
  cases he : l[k]? with
  | none =>
    rw [he] at hr
    cases hr
  | some e =>
    obtain ⟨hv, hnone⟩ := h e he
    rw [he] at hr
    dsimp only at hr
    rw [hv] at hr
    dsimp only at hr
    cases hload : load e with
    | mk v z' =>
      rw [hload] at hr hnone
      dsimp only at hnone
      subst hnone
      obtain rfl := Option.some.inj hr
      exact inside_nothing

/-- An entry is delivered, and the vnode is the one that it had or the one that the driver found. -/
theorem readEntryAt_loadable (set : DirTnode → Dirs) (he : l[k]? = some e) (h : Loadable W z node e) :
    ∃ v z', readEntryAt W z buf amount pos l k (fun e => loadAt W z node e typePerm set) =
      some (writeDirent W z' buf e.name v amount (pos + 1)) := by
  cases hv : e.vnode with
  | some v => exact ⟨v, z, readEntryAt_cached he hv⟩
  | none => exact ⟨_, _, readEntryAt_loads he hv (loadAt_of_loadable hv h)⟩

/-- **One of the lists, and the limit.** -/
theorem readEntryAt_inside (h0 : direntSize ≤ toSize amount) (h1 : amount < 2 ^ 63) :
    (∀ r, readEntryAt W z buf amount pos l k (fun e => loadAt W z node e typePerm set) = some r → Inside amount buf r) ↔
      ∀ e, l[k]? = some e → Loadable W z node e → (e.name.length : ℤ) + 33 ≤ amount := by
  constructor
  · intro h e he hloadable
    obtain ⟨v, z', hr⟩ := readEntryAt_loadable set he hloadable
    exact (writeDirent_inside h0 h1).1 (h _ hr).1
  · intro h r hr
    by_cases hloadable : ∃ e, l[k]? = some e ∧ Loadable W z node e
    · obtain ⟨e, he, hloadable⟩ := hloadable
      obtain ⟨v, z', hr'⟩ := readEntryAt_loadable set he hloadable
      obtain rfl := Option.some.inj (hr'.symm.trans hr)
      exact ⟨(writeDirent_inside h0 h1).2 (h e he hloadable), fun x => writeDirent_outside⟩
    · refine readEntryAt_nothing (fun e he => ?_) hr
      have hnot : ¬ Loadable W z node e := fun hl => hloadable ⟨e, he, hl⟩
      exact ⟨not_not.1 fun hv => hnot (.inl hv), loadAt_of_not hnot⟩

/-- **When a directory read stays inside the buffer.** A call writes to the first `amount` bytes only, just if the entry
that it delivers has a name that is 33 bytes shorter, or it delivers none. -/
theorem read_dir_inside_iff (ha : amount < 2 ^ 63) :
    (∀ r, vfsReadDir W z fdes buf amount = some r → Inside amount buf r) ↔ DirFits W z fdes amount := by
  unfold vfsReadDir DirFits nextEntry
  dsimp only
  by_cases hnode : fdes.node = NULL
  · rw [if_pos hnode]
    refine iff_of_true (fun r hr => ?_) fun h => absurd hnode h
    obtain rfl := Option.some.inj hr
    exact inside_nothing
  rw [if_neg hnode]
  by_cases hsize : toSize amount < direntSize
  · rw [if_pos hsize]
    refine iff_of_true (fun r hr => ?_) fun _ _ h => absurd hsize (by omega)
    obtain rfl := Option.some.inj hr
    exact inside_nothing
  rw [if_neg hsize]
  by_cases hmount : followMount z fdes.node = NULL
  · rw [if_pos hmount]
    refine iff_of_true (fun r hr => ?_) fun _ h => absurd hmount h
    obtain rfl := Option.some.inj hr
    exact inside_nothing
  rw [if_neg hmount]
  have hsize' : direntSize ≤ toSize amount := by omega
  simp only [hnode, hmount, hsize', ne_eq, not_false_eq_true, forall_const]
  split_ifs with hend hfolder
  · refine iff_of_true (fun r hr => ?_) fun e he => False.elim he
    obtain rfl := Option.some.inj hr
    exact inside_nothing
  · exact readEntryAt_inside hsize' ha
  · exact readEntryAt_inside hsize' ha

/-- A directory at `0x100`, with the directory `d` that is a mount point for `0x200`, and the file `a`. -/
def sampleDirs : Dirs := fun a =>
  if a = 0x100 then ⟨2, [⟨[100], some ⟨12, 0x4000⟩⟩], [⟨[97], none⟩], 1, 1, 0, NULL⟩
  else if a = 0x300 then ⟨12, [], [], 0, 0, 1, 0x200⟩
  else ⟨2, [], [⟨List.replicate 20 98, none⟩], 0, 1, 0, NULL⟩

def sampleDriver : DirWorld := ⟨fun _ _ => 13, fun _ => 0, fun _ => ⟨[], 0⟩, fun _ => ⟨[], 0⟩, fun _ => 0⟩

/-- The file `a` in a buffer of 64 bytes. -/
theorem read_dir_inside_sample : ∃ r,
    vfsReadDir sampleDriver sampleDirs ⟨0x100, 0, 0, 1, FD_READ⟩ (fun _ => 0) 64 = some r ∧ Inside 64 (fun _ => 0) r := by
  have hsome : (vfsReadDir sampleDriver sampleDirs ⟨0x100, 0, 0, 1, FD_READ⟩ (fun _ => 0) 64).isSome = true := by decide
  obtain ⟨r, hr⟩ := Option.isSome_iff_exists.1 hsome
  refine ⟨r, hr, (read_dir_inside_iff (show (64 : ℤ) < 2 ^ 63 by decide)).2 (fun _ _ _ e he _ => ?_) r hr⟩
  have hfile : nextEntry sampleDirs ⟨0x100, 0, 0, 1, FD_READ⟩ = some ⟨[97], none⟩ := by decide
  obtain rfl := Option.some.inj (hfile.symm.trans he)
  decide

/-- **A name of 20 bytes, and a buffer of the size of `struct dirent`**: 13 bytes behind it are written. -/
theorem read_dir_outside :
    (vfsReadDir sampleDriver sampleDirs ⟨0x300, 0, 0, 0, FD_READ⟩ (fun _ => 0) 40).map (fun r => (r.status, r.writes)) =
      some (60, [(0, 8), (24, 8), (16, 8), (32, 21)]) ∧
    ¬ ∀ r, vfsReadDir sampleDriver sampleDirs ⟨0x300, 0, 0, 0, FD_READ⟩ (fun _ => 0) 40 = some r →
      Inside 40 (fun _ => 0) r := by
  have hwrites : (vfsReadDir sampleDriver sampleDirs ⟨0x300, 0, 0, 0, FD_READ⟩ (fun _ => 0) 40).map
      (fun r => (r.status, r.writes)) = some (60, [(0, 8), (24, 8), (16, 8), (32, 21)]) := by decide
  refine ⟨hwrites, fun h => ?_⟩
  obtain ⟨r, hr, heq⟩ := Option.map_eq_some_iff.1 hwrites
  have hname : (32, 21) ∈ r.writes := by
    rw [(Prod.mk.inj heq).2]
    decide
  exact absurd ((h r hr).1 (32, 21) hname 52 (by decide) (by decide)) (by decide)

end Nettapus
