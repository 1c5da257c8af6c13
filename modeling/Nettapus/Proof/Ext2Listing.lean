import Nettapus.Proof.Ext2Dir
import Nettapus.Proof.Ext2Write
import Mathlib.Data.List.Forall2
import Mathlib.Data.List.Nodup

/-!
# A listing agrees with the lookup

The lists of a directory and the search in it, against the live records (`ListingLaw`).

The three loops stop at the first block that is not there, none of them skips a record with the inode 0,
and `ext2_list_files` takes a name up to the next `NUL`. `listing_law_iff` says when
the law holds in spite of that.
-/

namespace Nettapus

open Bytes Ext2Fs

variable {fs : Ext2Fs} {io : Io} {m : Mem} {behind : ℕ → ℕ → Mem} {node : Ext2Inode} {offs : ℕ → List ℕ}
variable {inode count : ℕ} {p : ℕ × ℕ}

/-- The block `k` of the directory is there. -/
def hasBlock (fs : Ext2Fs) (m : Mem) (node : Ext2Inode) (k : ℕ) : Bool := fs.fileBlock m node k ≠ 0

/-- The records that the loops come to, and those behind a block that is not there. -/
def visited (fs : Ext2Fs) (m : Mem) (node : Ext2Inode) (offs : ℕ → List ℕ) : List (ℕ × ℕ) :=
  positions offs ((List.range (fs.blockSize / 4)).takeWhile (hasBlock fs m node))

def hidden (fs : Ext2Fs) (m : Mem) (node : Ext2Inode) (offs : ℕ → List ℕ) : List (ℕ × ℕ) :=
  positions offs (((List.range (fs.blockSize / 4)).dropWhile (hasBlock fs m node)).filter (hasBlock fs m node))

/-- The records of all blocks. -/
def records (fs : Ext2Fs) (m : Mem) (node : Ext2Inode) (offs : ℕ → List ℕ) : List (ℕ × ℕ) :=
  positions offs ((List.range (fs.blockSize / 4)).filter (hasBlock fs m node))

def isLive (fs : Ext2Fs) (m : Mem) (node : Ext2Inode) (p : ℕ × ℕ) : Bool := (entryAt fs m node p).inode ≠ 0

def isFolder (fs : Ext2Fs) (m : Mem) (node : Ext2Inode) (p : ℕ × ℕ) : Bool := (entryAt fs m node p).type = 2

def live (fs : Ext2Fs) (m : Mem) (node : Ext2Inode) (offs : ℕ → List ℕ) : List (ℕ × ℕ) :=
  (records fs m node offs).filter (isLive fs m node)

/-- The byte behind the name of a record. -/
def endByte (fs : Ext2Fs) (m : Mem) (behind : ℕ → ℕ → Mem) (node : Ext2Inode) (p : ℕ × ℕ) : UInt8 :=
  withBehind fs behind p.1 (fs.blockAt m (fs.fileBlock m node p.1)) p.2 (p.2 + 8 + (entryAt fs m node p).nameLen)

/-- A directory as the driver finds it: its blocks are tiled by their records, and the live records have
different names without `NUL`. The device has no errors, and there is memory. -/
structure DirOk (fs : Ext2Fs) (io : Io) (m : Mem) (inode : ℕ) (node : Ext2Inode) (offs : ℕ → List ℕ) : Prop where
  inode_ge : 2 ≤ inode
  load : ext2LoadInode fs io m inode = some node
  isDir : node.typePerm &&& 0x4000 ≠ 0
  mem : ∀ s, io.noMem s = false
  map : ∀ k, fs.opensMap io node k = true
  loads : ∀ k, fs.fileBlock m node k ≠ 0 → fs.loads io (fs.fileBlock m node k) = true
  tiled : ∀ k, fs.fileBlock m node k ≠ 0 → Tiles fs.blockSize (fs.blockAt m (fs.fileBlock m node k)) 0 (offs k)
  noNul : ∀ p ∈ live fs m node offs, (0 : UInt8) ∉ nameAt fs m node p
  nodup : ((live fs m node offs).map (nameAt fs m node)).Nodup

/-- What the lists and the search should give. -/
structure ListingLaw (fs : Ext2Fs) (io : Io) (m : Mem) (behind : ℕ → ℕ → Mem) (inode count : ℕ)
    (node : Ext2Inode) (offs : ℕ → List ℕ) : Prop where
  files : ∃ c l, ext2ListFiles fs io m behind inode count = some (c, l) ∧
    l.Perm (((live fs m node offs).filter fun p => !isFolder fs m node p).map (nameAt fs m node))
  folders : ∃ c l, ext2ListFolders fs io m inode count = some (c, l) ∧
    l.Perm (((live fs m node offs).filter (isFolder fs m node)).map (nameAt fs m node))
  found : ∀ p ∈ live fs m node offs, ∃ entry, ext2SearchDir fs io m node (nameAt fs m node p) = some (some entry) ∧
    entry.inode = (entryAt fs m node p).inode
  absent : ∀ name, (0 : UInt8) ∉ name → (∀ p ∈ live fs m node offs, nameAt fs m node p ≠ name) →
    ext2SearchDir fs io m node name = some none

/-- When they give it. -/
structure PlainDir (fs : Ext2Fs) (m : Mem) (behind : ℕ → ℕ → Mem) (node : Ext2Inode) (offs : ℕ → List ℕ) : Prop where
  noHidden : ∀ p ∈ hidden fs m node offs, (entryAt fs m node p).inode = 0
  noDead : ∀ p ∈ visited fs m node offs, (entryAt fs m node p).inode ≠ 0
  ended : ∀ p ∈ visited fs m node offs, (entryAt fs m node p).type ≠ 2 → endByte fs m behind node p = 0

/-! ## The functions as list functions -/

theorem takeWhile_range (q : ℕ → Bool) (n : ℕ) : ∃ h ≤ n, (List.range n).takeWhile q = List.range h ∧
    (∀ k < h, q k = true) ∧ (h < n → q h = false) := by
  induction n with
  | zero => exact ⟨0, le_rfl, rfl, by omega, by omega⟩
  | succ n ih =>
    obtain ⟨h, hle, heq, hall, hnext⟩ := ih
    rw [List.range_succ, List.takeWhile_append, heq, List.length_range, List.length_range]
    by_cases hn : h = n
    · subst hn
      rw [if_pos rfl]
      cases hq : q h with
      | true =>
        refine ⟨h + 1, le_rfl, ?_, fun k hk => ?_, by omega⟩
        · rw [List.takeWhile_cons_of_pos hq, List.takeWhile_nil, List.range_succ]
        · rcases Nat.lt_succ_iff_lt_or_eq.1 hk with hk | rfl
          · exact hall k hk
          · exact hq
      | false =>
        refine ⟨h, by omega, ?_, hall, fun _ => hq⟩
        rw [List.takeWhile_cons_of_neg (by simp [hq]), List.append_nil]
    · rw [if_neg hn]
      exact ⟨h, by omega, rfl, hall, fun _ => hnext (by omega)⟩

theorem filter_eq_takeWhile_append {α : Type} (q : α → Bool) (l : List α) :
    l.filter q = l.takeWhile q ++ (l.dropWhile q).filter q := by
  conv_lhs => rw [← List.takeWhile_append_dropWhile (p := q) (l := l), List.filter_append]
  congr 1
  exact List.filter_eq_self.2 fun a ha => List.mem_takeWhile_imp ha

theorem records_eq : records fs m node offs = visited fs m node offs ++ hidden fs m node offs := by
  unfold records visited hidden positions
  rw [filter_eq_takeWhile_append, List.flatMap_append]

theorem mem_positions {ks : List ℕ} : p ∈ positions offs ks ↔ p.1 ∈ ks ∧ p.2 ∈ offs p.1 := by
  unfold positions
  rw [List.mem_flatMap]
  constructor
  · rintro ⟨k, hk, hp⟩
    obtain ⟨i, hi, rfl⟩ := List.mem_map.1 hp
    exact ⟨hk, hi⟩
  · rintro ⟨hk, hi⟩
    exact ⟨p.1, hk, List.mem_map.2 ⟨p.2, hi, rfl⟩⟩

theorem mem_visited (hp : p ∈ visited fs m node offs) : fs.fileBlock m node p.1 ≠ 0 ∧ p.2 ∈ offs p.1 := by
  obtain ⟨h1, h2⟩ := mem_positions.1 hp
  have h3 : hasBlock fs m node p.1 = true := List.mem_takeWhile_imp h1
  exact ⟨of_decide_eq_true h3, h2⟩

/-- The blocks up to the first one that is not there. -/
theorem DirOk.hole (h : fs.Ok) (hd : DirOk fs io m inode node offs) : ∃ hole ≤ fs.blockSize / 4,
    (List.range (fs.blockSize / 4)).takeWhile (hasBlock fs m node) = List.range hole ∧
    (∀ k < hole, BlockOk fs io m node offs k) ∧ ext2BlockInInode fs io m node hole = 0 := by
  obtain ⟨hole, hle, heq, hall, hnext⟩ := takeWhile_range (hasBlock fs m node) (fs.blockSize / 4)
  refine ⟨hole, hle, heq, fun k hk => ?_, ?_⟩
  · have hk0 : fs.fileBlock m node k ≠ 0 := of_decide_eq_true (hall k hk)
    exact ⟨hd.map k, hk0, hd.loads k hk0, hd.tiled k hk0⟩
  · rw [ext2BlockInInode_eq h, if_pos (hd.map hole)]
    by_contra hne
    have hlt := h.fileBlock_bound hne
    exact absurd (hnext hlt) (by simp [hasBlock, hne])

theorem newTnode_eq (hmem : ∀ s, io.noMem s = false) (name : Option (List UInt8)) : newTnode io name = name := by
  unfold newTnode
  cases name with
  | none => rfl
  | some name => simp [hmem]

/-- Both lists, by the records that are kept and what is made of their names. -/
theorem DirOk.listDir_eq (h : fs.Ok) (hd : DirOk fs io m inode node offs) {keep : Ext2DirEntry → Bool}
    {name : ℕ → Mem → ℕ → Option (List UInt8)} {str : ℕ × ℕ → Option (List UInt8)}
    (hname : ∀ p ∈ visited fs m node offs, ∀ buf,
      (∀ x < fs.blockSize, buf x = fs.blockAt m (fs.fileBlock m node p.1) x) → name p.1 buf p.2 = str p) :
    listDir fs io m keep name inode count =
      (((visited fs m node offs).filter fun p => keep (entryAt fs m node p)).mapM str).map
        fun l => (l.length, l) := by
  obtain ⟨hole, hle, heq, hok, hend⟩ := hd.hole h
  unfold listDir
  rw [if_neg (not_lt.2 hd.inode_ge), hd.mem, if_neg (by decide), hd.load]
  dsimp only
  rw [listLoop_spec h (hd.mem _) hok hend (fun k hk buf hbuf i hi => hname (k, i)
    (mem_positions.2 ⟨heq ▸ List.mem_range.2 hk, hi⟩) buf hbuf) (Nat.zero_add hole) (by omega)]
  unfold visited
  rw [heq, List.range_eq_range', mapM_congr fun p _ => newTnode_eq hd.mem (str p)]
  simp

theorem DirOk.searchDir_eq (h : fs.Ok) (hd : DirOk fs io m inode node offs) (name : List UInt8) :
    ext2SearchDir fs io m node name =
      some (((visited fs m node offs).find? fun p => cString (nameAt fs m node p) = name).map (entryAt fs m node)) := by
  obtain ⟨hole, hle, heq, hok, hend⟩ := hd.hole h
  unfold ext2SearchDir
  rw [if_neg hd.isDir, searchLoop_spec h hd.mem hok hend (Nat.zero_add hole) (by omega)]
  unfold visited
  rw [heq, List.range_eq_range']

/-! ## The names of the file list -/

/-- What `ext2_list_files` makes of the name of a record. -/
def strAt (fs : Ext2Fs) (m : Mem) (behind : ℕ → ℕ → Mem) (node : Ext2Inode) (p : ℕ × ℕ) : Option (List UInt8) :=
  (strlen (withBehind fs behind p.1 (fs.blockAt m (fs.fileBlock m node p.1)) p.2) (p.2 + 8)).map
    (bytes (withBehind fs behind p.1 (fs.blockAt m (fs.fileBlock m node p.1)) p.2) (p.2 + 8))

theorem withBehind_congr {buf buf' : Mem} {k i : ℕ} (h : ∀ x < fs.blockSize, buf x = buf' x) :
    withBehind fs behind k buf i = withBehind fs behind k buf' i := by
  funext x
  unfold withBehind
  split_ifs with hx
  · exact h x hx
  · rfl

theorem strlenLoop_lt {buf : Mem} {n : ℕ} : ∀ {fuel a : ℕ}, strlenLoop buf fuel a = some n → n < fuel := by
  induction n with
  | zero =>
    intro fuel a h
    rcases fuel with _ | f
    · exact absurd h (by simp [strlenLoop])
    · omega
  | succ n ih =>
    intro fuel a h
    rcases fuel with _ | f
    · exact absurd h (by simp [strlenLoop])
    · rw [strlenLoop] at h
      split_ifs at h with h0
      · exact absurd h (by simp)
      · obtain ⟨k, hk, hkn⟩ := Option.map_eq_some_iff.1 h
        have := ih (hk.trans (congrArg some (show k = n by omega)))
        omega

theorem length_nameAt : (nameAt fs m node p).length = (entryAt fs m node p).nameLen := by
  simp [nameAt, entryName, bytes, entryAt]

theorem nameLen_lt : (entryAt fs m node p).nameLen < 256 := load_lt _ 1 _

theorem DirOk.inside (hd : DirOk fs io m inode node offs) (hp : p ∈ visited fs m node offs) :
    p.2 + 12 ≤ fs.blockSize ∧ p.2 + 8 + (entryAt fs m node p).nameLen ≤ fs.blockSize := by
  obtain ⟨h1, h2⟩ := mem_visited hp
  exact (hd.tiled p.1 h1).inside p.2 h2

/-- The name of a record is at its place, and has no `NUL`. -/
theorem DirOk.name_byte (hd : DirOk fs io m inode node offs) (hp : p ∈ visited fs m node offs)
    (h0 : (0 : UInt8) ∉ nameAt fs m node p) {j : ℕ} (hj : j < (entryAt fs m node p).nameLen) :
    withBehind fs behind p.1 (fs.blockAt m (fs.fileBlock m node p.1)) p.2 (p.2 + 8 + j) ≠ 0 := by
  have hin := (hd.inside hp).2
  unfold withBehind
  rw [if_pos (by omega)]
  exact zero_notMem_bytes.1 h0 j hj

/-- The string is the name if a `NUL` follows it. -/
theorem DirOk.strAt_of_ended (hd : DirOk fs io m inode node offs) (hp : p ∈ visited fs m node offs)
    (h0 : (0 : UInt8) ∉ nameAt fs m node p) (he : endByte fs m behind node p = 0) :
    strAt fs m behind node p = some (nameAt fs m node p) := by
  have hlen : strlen (withBehind fs behind p.1 (fs.blockAt m (fs.fileBlock m node p.1)) p.2) (p.2 + 8) =
      some (entryAt fs m node p).nameLen :=
    (strlenLoop_spec (nameLen_lt.trans (by decide))).2 ⟨he, fun j hj => hd.name_byte hp h0 hj⟩
  unfold strAt
  rw [hlen, Option.map_some]
  congr 1
  refine bytes_congr fun j hj => ?_
  have hin := (hd.inside hp).2
  unfold withBehind
  rw [if_pos (by omega)]

/-- The string is never shorter than the name, and as long only if a `NUL` follows it. -/
theorem DirOk.strAt_length (hd : DirOk fs io m inode node offs) (hp : p ∈ visited fs m node offs)
    (h0 : (0 : UInt8) ∉ nameAt fs m node p) {s : List UInt8} (hs : strAt fs m behind node p = some s) :
    (nameAt fs m node p).length ≤ s.length ∧
      (s.length = (nameAt fs m node p).length → endByte fs m behind node p = 0) := by
  obtain ⟨n, hn, rfl⟩ := Option.map_eq_some_iff.1 hs
  obtain ⟨h1, -⟩ := (strlenLoop_spec (strlenLoop_lt hn)).1 hn
  have hlen : (bytes (withBehind fs behind p.1 (fs.blockAt m (fs.fileBlock m node p.1)) p.2) (p.2 + 8) n).length = n := by
    simp [bytes]
  rw [hlen, length_nameAt]
  constructor
  · by_contra hlt
    exact hd.name_byte hp h0 (by omega) h1
  · rintro rfl
    exact h1

/-! ## Lists -/

theorem forall₂_of_mapM {α β : Type} {f : α → Option β} {l : List α} : ∀ {l' : List β}, l.mapM f = some l' →
    List.Forall₂ (fun a b => f a = some b) l l' := by
  induction l with
  | nil =>
    intro l' h
    obtain rfl : [] = l' := Option.some.inj h
    exact .nil
  | cons a l ih =>
    intro l' h
    rw [List.mapM_cons] at h
    obtain ⟨b, hb, h⟩ := Option.bind_eq_some_iff.1 h
    obtain ⟨l'', hl, h⟩ := Option.bind_eq_some_iff.1 h
    obtain rfl : b :: l'' = l' := Option.some.inj h
    exact .cons hb (ih hl)

theorem mapM_some {α β : Type} {f : α → Option β} {g : α → β} {l : List α} (h : ∀ a ∈ l, f a = some (g a)) :
    l.mapM f = some (l.map g) := by
  induction l with
  | nil => rfl
  | cons a l ih =>
    rw [List.mapM_cons, h a List.mem_cons_self, ih fun b hb => h b (List.mem_cons_of_mem _ hb)]
    rfl

/-- If nothing is shorter, and the sums of the lengths agree, then the lengths agree. -/
theorem lengths_eq {α : Type} {R : α → List UInt8 → Prop} {f : α → List UInt8} {l : List α} {l' : List (List UInt8)}
    (h : List.Forall₂ R l l') (hle : ∀ a ∈ l, ∀ b, R a b → (f a).length ≤ b.length)
    (hsum : (l'.map List.length).sum = ((l.map f).map List.length).sum) :
    ∀ a ∈ l, ∃ b, R a b ∧ b.length = (f a).length := by
  have hsum_le : ∀ {l : List α} {l' : List (List UInt8)}, List.Forall₂ R l l' →
      (∀ a ∈ l, ∀ b, R a b → (f a).length ≤ b.length) →
      ((l.map f).map List.length).sum ≤ (l'.map List.length).sum := by
    intro l l' h hle
    induction h with
    | nil => exact le_rfl
    | cons hab _ ih =>
      have h1 := hle _ List.mem_cons_self _ hab
      have h2 := ih fun a ha => hle a (List.mem_cons_of_mem _ ha)
      simp only [List.map_cons, List.sum_cons]
      omega
  induction h with
  | nil => exact fun a ha => absurd ha List.not_mem_nil
  | @cons a b l l' hab ht ih =>
    have hle' : ∀ a ∈ l, ∀ b, R a b → (f a).length ≤ b.length := fun a ha => hle a (List.mem_cons_of_mem _ ha)
    have h1 := hle a List.mem_cons_self b hab
    have h2 := hsum_le ht hle'
    simp only [List.map_cons, List.sum_cons] at hsum
    intro c hc
    rcases List.mem_cons.1 hc with rfl | hc
    · exact ⟨b, hab, by omega⟩
    · exact ih hle' (by omega) c hc

/-- If as many are left of those with `q`, then all with `q` have `r`. -/
theorem filter_length {α : Type} {q r : α → Bool} {l : List α}
    (h : ((l.filter r).filter q).length = (l.filter q).length) : ∀ a ∈ l, q a = true → r a = true := by
  rw [List.filter_comm, List.length_filter_eq_length_iff] at h
  intro a ha hq
  exact h a (List.mem_filter.2 ⟨ha, hq⟩)

/-! ## The law -/

theorem DirOk.files_eq (h : fs.Ok) (hd : DirOk fs io m inode node offs) :
    ext2ListFiles fs io m behind inode count =
      (((visited fs m node offs).filter fun p => !isFolder fs m node p).mapM (strAt fs m behind node)).map
        fun l => (l.length, l) := by
  unfold ext2ListFiles
  rw [hd.listDir_eq h ]
  · congr 2
    apply List.filter_congr
    intro p _
    simp [isFolder]
  · intro p _ buf hbuf
    unfold strAt
    rw [withBehind_congr hbuf]

theorem DirOk.folders_eq (h : fs.Ok) (hd : DirOk fs io m inode node offs) :
    ∃ c, ext2ListFolders fs io m inode count =
      some (c, ((visited fs m node offs).filter (isFolder fs m node)).map fun p => cString (nameAt fs m node p)) := by
  unfold ext2ListFolders
  rw [hd.listDir_eq h ]
  · rw [mapM_some fun p _ => rfl]
    exact ⟨_, rfl⟩
  · intro p hp buf hbuf
    have hin := hd.inside hp
    have hd' := dirEntry_congr hbuf hin.1
    have hn : p.2 + 8 + (dirEntry buf p.2).nameLen ≤ fs.blockSize := by rw [hd']; exact hin.2
    rw [entryName_congr hbuf hin.1 hn]
    rfl

theorem live_eq : live fs m node offs =
    (visited fs m node offs).filter (isLive fs m node) ++ (hidden fs m node offs).filter (isLive fs m node) := by
  unfold live
  rw [records_eq, List.filter_append]

theorem mem_live_of_visited (hp : p ∈ visited fs m node offs) (hl : (entryAt fs m node p).inode ≠ 0) :
    p ∈ live fs m node offs := by
  rw [live_eq]
  exact List.mem_append_left _ (List.mem_filter.2 ⟨hp, by simpa [isLive] using hl⟩)

/-- A hidden live record is not found. -/
theorem ListingLaw.noHidden (h : fs.Ok) (hd : DirOk fs io m inode node offs)
    (hl : ListingLaw fs io m behind inode count node offs) (hp : p ∈ hidden fs m node offs) :
    (entryAt fs m node p).inode = 0 := by
  by_contra hne
  have hpl : p ∈ (hidden fs m node offs).filter (isLive fs m node) :=
    List.mem_filter.2 ⟨hp, by simpa [isLive] using hne⟩
  obtain ⟨entry, hs, hi⟩ := hl.found p (by rw [live_eq]; exact List.mem_append_right _ hpl)
  rw [hd.searchDir_eq h] at hs
  obtain ⟨q, hq, rfl⟩ := Option.map_eq_some_iff.1 (Option.some.inj hs)
  -- what is found is a live record that was visited, with the same name
  have hqv := List.mem_of_find?_eq_some hq
  have hql := mem_live_of_visited hqv (by rw [hi]; exact hne)
  have hname : cString (nameAt fs m node q) = nameAt fs m node p := by simpa using List.find?_some hq
  rw [cString_of_notMem (hd.noNul q hql)] at hname
  have hnodup := hd.nodup
  rw [live_eq, List.map_append, List.nodup_append] at hnodup
  refine hnodup.2.2 _ (List.mem_map.2 ⟨q, List.mem_filter.2 ⟨hqv, ?_⟩, hname⟩) _
    (List.mem_map.2 ⟨p, hpl, rfl⟩) rfl
  simpa [isLive, hi] using hne

theorem live_of_noHidden (hno : ∀ p ∈ hidden fs m node offs, (entryAt fs m node p).inode = 0) :
    live fs m node offs = (visited fs m node offs).filter (isLive fs m node) := by
  have hnil : (hidden fs m node offs).filter (isLive fs m node) = [] := by
    rw [List.filter_eq_nil_iff]
    intro p hp
    simp [isLive, hno p hp]
  rw [live_eq, hnil, List.append_nil]

/-- If the law holds, the directory is plain. -/
theorem ListingLaw.plain (h : fs.Ok) (hd : DirOk fs io m inode node offs)
    (hl : ListingLaw fs io m behind inode count node offs) : PlainDir fs m behind node offs := by
  have hno : ∀ p ∈ hidden fs m node offs, (entryAt fs m node p).inode = 0 := fun p hp => hl.noHidden h hd hp
  have hlive := live_of_noHidden hno
  obtain ⟨c, l, hf, hperm⟩ := hl.files
  obtain ⟨c', l', hg, hperm'⟩ := hl.folders
  rw [hd.files_eq h] at hf
  obtain ⟨strs, hstrs, hpair⟩ := Option.map_eq_some_iff.1 hf
  obtain rfl : strs = l := congrArg Prod.snd hpair
  obtain ⟨c'', hfold⟩ := hd.folders_eq h
  rw [hfold] at hg
  obtain rfl := congrArg Prod.snd (Option.some.inj hg)
  have hall := forall₂_of_mapM hstrs
  rw [hlive] at hperm hperm'
  -- as many names as live records of each kind, so every record is live
  have hlen := hperm.length_eq
  rw [List.length_map, ← hall.length_eq] at hlen
  have hlen' := hperm'.length_eq
  rw [List.length_map, List.length_map] at hlen'
  have hdead : ∀ p ∈ visited fs m node offs, (entryAt fs m node p).inode ≠ 0 := by
    intro p hp
    have hpl : isLive fs m node p = true := by
      cases hfol : isFolder fs m node p with
      | true => exact filter_length hlen'.symm p hp hfol
      | false => exact filter_length hlen.symm p hp (by simp [hfol])
    simpa [isLive] using hpl
  refine ⟨hno, hdead, fun p hp htype => ?_⟩
  have hfil : (visited fs m node offs).filter (isLive fs m node) = visited fs m node offs :=
    List.filter_eq_self.2 fun p hp => by simpa [isLive] using hdead p hp
  rw [hfil] at hperm
  -- no string is shorter than its name, and together they are as long
  have hsum := (hperm.map List.length).sum_nat
  have hnul : ∀ q ∈ visited fs m node offs, (0 : UInt8) ∉ nameAt fs m node q :=
    fun q hq => hd.noNul q (mem_live_of_visited hq (hdead q hq))
  obtain ⟨s, hs, hslen⟩ := lengths_eq hall
    (fun q hq s hs => (hd.strAt_length (List.mem_of_mem_filter hq) (hnul q (List.mem_of_mem_filter hq)) hs).1)
    hsum p (List.mem_filter.2 ⟨hp, by simpa [isFolder] using htype⟩)
  exact (hd.strAt_length hp (hnul p hp) hs).2 hslen

/-- If the directory is plain, the law holds. -/
theorem PlainDir.law (h : fs.Ok) (hd : DirOk fs io m inode node offs) (hp : PlainDir fs m behind node offs) :
    ListingLaw fs io m behind inode count node offs := by
  have hfil : (visited fs m node offs).filter (isLive fs m node) = visited fs m node offs :=
    List.filter_eq_self.2 fun p hpv => by simpa [isLive] using hp.noDead p hpv
  have hlive : live fs m node offs = visited fs m node offs := (live_of_noHidden hp.noHidden).trans hfil
  have hnul : ∀ q ∈ visited fs m node offs, (0 : UInt8) ∉ nameAt fs m node q := fun q hq => hd.noNul q (hlive ▸ hq)
  refine ⟨?_, ?_, fun p hpl => ?_, fun name h0 habs => ?_⟩
  · rw [hd.files_eq h, hlive, mapM_some (g := nameAt fs m node)]
    · exact ⟨_, _, rfl, List.Perm.refl _⟩
    · intro p hpf
      obtain ⟨hpv, hty⟩ := List.mem_filter.1 hpf
      exact hd.strAt_of_ended hpv (hnul p hpv) (hp.ended p hpv (by simpa [isFolder] using hty))
  · obtain ⟨c, hc⟩ := hd.folders_eq h
    refine ⟨c, _, hc, ?_⟩
    rw [hlive, List.map_congr_left fun p hpf => cString_of_notMem (hnul p (List.mem_of_mem_filter hpf))]
  · rw [hlive] at hpl
    rw [hd.searchDir_eq h]
    obtain ⟨q, hq⟩ : ∃ q, (visited fs m node offs).find?
        (fun q => cString (nameAt fs m node q) = nameAt fs m node p) = some q := by
      refine Option.isSome_iff_exists.1 (List.find?_isSome.2 ⟨p, hpl, ?_⟩)
      simp [cString_of_notMem (hnul p hpl)]
    have hqv := List.mem_of_find?_eq_some hq
    have hname : cString (nameAt fs m node q) = nameAt fs m node p := by simpa using List.find?_some hq
    rw [cString_of_notMem (hnul q hqv)] at hname
    have hnodup := hd.nodup
    rw [hlive] at hnodup
    obtain rfl : q = p := List.inj_on_of_nodup_map hnodup hqv hpl hname
    rw [hq]
    exact ⟨_, rfl, rfl⟩
  · rw [hd.searchDir_eq h, List.find?_eq_none.2]
    · rfl
    · intro q hq
      rw [cString_of_notMem (hnul q hq)]
      simpa using habs q (hlive ▸ hq)

/-- **The listing agrees with the lookup if and only if the directory is plain**: no live record is behind a
missing block, no record up to there has the inode 0, and the name of every record that is not a folder's is
followed by a `NUL`. -/
theorem listing_law_iff (h : fs.Ok) (hd : DirOk fs io m inode node offs) :
    ListingLaw fs io m behind inode count node offs ↔ PlainDir fs m behind node offs :=
  ⟨fun hl => hl.plain h hd, fun hp => hp.law h hd⟩

/-! ## A directory of two records -/

/-- The root is the block 20. The first record is a file with this name, and the second one a folder `e`. -/
def dirImage (name : List UInt8) : Mem := fun x =>
  if x = 2 * 1024 then 4                     -- the block bitmap
  else if x = 2 * 1024 + 4 then 3            -- the inode bitmap
  else if x = 2 * 1024 + 8 then 5            -- the inode table
  else if x = 2 * 1024 + 12 then 43          -- free blocks, and free inodes
  else if x = 2 * 1024 + 14 then 6
  else if x = 3 * 1024 then 3
  else if x = 4 * 1024 ∨ x = 4 * 1024 + 1 then 0xFF
  else if x = 4 * 1024 + 2 then 0x1F
  else if x = 5 * 1024 + 128 + 1 then 0x40   -- the inode 2 is a directory
  else if x = 5 * 1024 + 128 + 40 then 20    -- its block
  else if 20 * 1024 ≤ x then
    ([11, 0, 0, 0, 12, 0, UInt8.ofNat name.length, 1] ++ name ++ List.replicate (4 - name.length) 0 ++
      [12, 0, 0, 0, 0xF4, 3, 1, 2, 101]).getD (x - 20 * 1024) 0
  else 0

def dirNode (name : List UInt8) : Ext2Inode :=
  (ext2LoadInode smallFs Io.quiet (dirImage name) 2).getD ⟨fun _ => 0⟩

/-- Only the block 0 of the directory has records, at 0 and at 12. -/
def dirOffs (k : ℕ) : List ℕ := if k = 0 then [0, 12] else []

/-- The two names. -/
def shortName : List UInt8 := [97]
def fullName : List UInt8 := [97, 98, 99, 100]

theorem dirImage_low (name : List UInt8) {x : ℕ} (hx : x < 1024) : dirImage name x = 0 := by
  unfold dirImage
  rw [if_neg (by omega), if_neg (by omega), if_neg (by omega), if_neg (by omega), if_neg (by omega),
    if_neg (by omega), if_neg (by omega), if_neg (by omega), if_neg (by omega), if_neg (by omega),
    if_neg (by omega)]

theorem load_zero (a n : ℕ) : load (fun _ => 0) a n = 0 := by
  induction n generalizing a with
  | zero => rfl
  | succ n ih =>
    rw [load, ih]
    rfl

/-- The directory has one block, if its inode says so. -/
theorem dirNode_block {name : List UInt8} (hsi : (dirNode name).singlyIndirect = 0)
    (hdirect : ∀ k < 12, k ≠ 0 → (dirNode name).directBlock k = 0) {k : ℕ} (hk : k ≠ 0) :
    smallFs.fileBlock (dirImage name) (dirNode name) k = 0 := by
  unfold Ext2Fs.fileBlock
  split_ifs with h1 h2
  · exact hdirect k h1 hk
  · have hs : smallFs.blockSize = 1024 := rfl
    have hb : smallFs.base = 0 := rfl
    rw [hs] at h2
    rw [hsi]
    refine (load_congr fun x h3 h4 => dirImage_low name ?_).trans (load_zero (4 * (k - 12)) 4)
    rw [hb]
    omega
  · rfl

theorem dirImage_ok {name : List UInt8} (hload : (ext2LoadInode smallFs Io.quiet (dirImage name) 2).isSome = true)
    (hdir : (dirNode name).typePerm &&& 0x4000 ≠ 0) (hsi : (dirNode name).singlyIndirect = 0)
    (hdirect : ∀ k < 12, k ≠ 0 → (dirNode name).directBlock k = 0)
    (hblock : smallFs.fileBlock (dirImage name) (dirNode name) 0 = 20)
    (htiles : Tiles 1024 (smallFs.blockAt (dirImage name) 20) 0 [0, 12])
    (hnul : ∀ p ∈ live smallFs (dirImage name) (dirNode name) dirOffs,
      (0 : UInt8) ∉ nameAt smallFs (dirImage name) (dirNode name) p)
    (hnodup : ((live smallFs (dirImage name) (dirNode name) dirOffs).map
      (nameAt smallFs (dirImage name) (dirNode name))).Nodup) :
    DirOk smallFs Io.quiet (dirImage name) 2 (dirNode name) dirOffs := by
  have honly : ∀ k, smallFs.fileBlock (dirImage name) (dirNode name) k ≠ 0 → k = 0 := by
    intro k hk
    by_contra hne
    exact hk (dirNode_block hsi hdirect hne)
  refine ⟨le_rfl, ?_, hdir, fun _ => rfl, fun k => ?_, fun k hk => ?_, fun k hk => ?_, hnul, hnodup⟩
  · obtain ⟨node, hnode⟩ := Option.isSome_iff_exists.1 hload
    unfold dirNode
    rw [hnode]
    rfl
  · unfold Ext2Fs.opensMap
    rw [hsi]
    have : smallFs.opens Io.quiet 0 = true := by decide +kernel
    rw [this, Bool.or_true]
  · rw [honly k hk, hblock]
    decide +kernel
  · rw [honly k hk, hblock]
    exact htiles

/-- Two records, of 12 and of 1012 bytes. -/
theorem tiles_two {buf : Mem} (h0 : (dirEntry buf 0).size = 12) (h1 : (dirEntry buf 12).size = 1012)
    (hn0 : (dirEntry buf 0).nameLen + 8 ≤ 12) (hn1 : (dirEntry buf 12).nameLen + 8 ≤ 1012) :
    Tiles 1024 buf 0 [0, 12] := by
  refine .cons (by rw [h0]) (by rw [h0]; exact hn0) ?_
  rw [h0]
  refine .cons (by rw [h1]; decide) (by rw [h1]; exact hn1) ?_
  rw [h1]
  exact .nil

theorem shortDir_ok : DirOk smallFs Io.quiet (dirImage shortName) 2 (dirNode shortName) dirOffs :=
  dirImage_ok (by decide +kernel) (by decide +kernel) (by decide +kernel) (by decide +kernel) (by decide +kernel)
    (tiles_two (by decide +kernel) (by decide +kernel) (by decide +kernel) (by decide +kernel)) (by decide +kernel)
    (by decide +kernel)

theorem fullDir_ok : DirOk smallFs Io.quiet (dirImage fullName) 2 (dirNode fullName) dirOffs :=
  dirImage_ok (by decide +kernel) (by decide +kernel) (by decide +kernel) (by decide +kernel) (by decide +kernel)
    (tiles_two (by decide +kernel) (by decide +kernel) (by decide +kernel) (by decide +kernel)) (by decide +kernel)
    (by decide +kernel)

theorem listing_law_padded : ListingLaw smallFs Io.quiet (dirImage shortName) (fun _ _ _ => 0) 2 0
    (dirNode shortName) dirOffs := by
  refine (listing_law_iff smallFs_ok shortDir_ok).2 ⟨?_, ?_, ?_⟩
  · decide +kernel
  · decide +kernel
  · decide +kernel

/-- The name of four bytes has no room for a `NUL`: the listed name goes on with the next record. -/
theorem listing_joins_records : smallFs.Ok ∧
    DirOk smallFs Io.quiet (dirImage fullName) 2 (dirNode fullName) dirOffs ∧
    ext2ListFiles smallFs Io.quiet (dirImage fullName) (fun _ _ _ => 0) 2 0 = some (1, [[97, 98, 99, 100, 12]]) ∧
    ¬ ListingLaw smallFs Io.quiet (dirImage fullName) (fun _ _ _ => 0) 2 0 (dirNode fullName) dirOffs := by
  refine ⟨smallFs_ok, fullDir_ok, by decide +kernel, fun hl => ?_⟩
  have hp := (hl.plain smallFs_ok fullDir_ok).ended
  revert hp
  decide +kernel

end Nettapus
