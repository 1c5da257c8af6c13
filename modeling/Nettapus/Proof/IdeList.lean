import Nettapus.Code.IdeList
import Nettapus.Lib.Keyed
import Nettapus.Lib.Links
import Nettapus.Proof.Ide

/-!
# The list of disks as a map

`IdeMem.Holds` says that the list in memory has given disks. `registerDisk_holds` is that `ide_register_disk` does on it
what `ideRegisterDisk` does on the list of its disks, and `Holds.answers_iff` that `ide_find_drive` finds the first disk
with the number.

`ide_map_iff`: the calls make a map of the disks by their numbers exactly when no number comes again after a call with a
new one. A refreshed disk takes over the link of the new node, which is `NULL`, so all disks behind it are lost; the only
one with nothing behind it is the one whose number was new last.
-/

namespace Nettapus

open Links Keyed

variable {A : Allocator} {m m' : IdeMem} {L : List ℕ} {drives calls : List IdeNode} {disk : IdeNode} {id fuel : ℕ}

/-! ## The list in memory -/

/-- The list has the nodes `L`, with these disks. -/
structure IdeMem.Holds (m : IdeMem) (L : List ℕ) (drives : List IdeNode) : Prop where
  first : m.firstDrive = front L NULL
  linked : Linked m.next L NULL
  nodup : L.Nodup
  notNull : NULL ∉ L
  live : L ⊆ m.live.toList
  drives : L.map m.drive = drives

namespace IdeMem

theorem Holds.length_le (h : m.Holds L drives) : L.length ≤ m.live.card := by
  rw [← Finset.length_toList]
  exact (h.nodup.subperm h.live).length_le

theorem holds_init (drive : ℕ → IdeNode) (next : ℕ → ℕ) (live : Finset ℕ) : (init drive next live).Holds [] [] :=
  ⟨rfl, trivial, List.nodup_nil, by simp, by simp, rfl⟩

/-- What the loop of `ide_register_disk` leaves of the list from `a` on. -/
structure Registered (m : IdeMem) (ndrive a : ℕ) (L : List ℕ) (m' : IdeMem) (L' : List ℕ) : Prop where
  first : m'.firstDrive = m.firstDrive
  linked : Linked m'.next (a :: L') NULL
  nodup : (a :: L').Nodup
  sub : L' ⊆ ndrive :: L
  drives : (a :: L').map m'.drive = Nettapus.ideRegisterDisk (m.drive ndrive) ((a :: L).map m.drive)
  frame : ∀ x, x ∉ a :: L → m'.next x = m.next x ∧ m'.drive x = m.drive x
  live : ∀ x ∈ m.live, (x = ndrive → x ∈ L') → x ∈ m'.live

/-- The disk at `a` is refreshed: the list ends there from now on. -/
theorem registered_refresh {ndrive a : ℕ} (hlink : m.next ndrive = NULL)
    (hid : (m.drive a).driveId = (m.drive ndrive).driveId) : Registered m ndrive a L { m with
      drive := Function.update m.drive a (m.drive ndrive)
      next := Function.update m.next a (m.next ndrive)
      live := kfreeBlock m.live ndrive } [] := by
  refine ⟨rfl, by simp [hlink], by simp, by simp, ?_, fun x hx => ?_, fun x hlive hx => ?_⟩
  · simp [Nettapus.ideRegisterDisk, hid]
  · have hxa : x ≠ a := fun hxa => hx (by simp [hxa])
    simp [hxa]
  · refine Finset.mem_erase.2 ⟨fun hxn => ?_, hlive⟩
    exact absurd (hx hxn) (by simp)

/-- **The loop of `ide_register_disk`**, by induction on the list behind the node that it looks at. -/
theorem registerLoop_spec {ndrive a : ℕ} (hL : Linked m.next (a :: L) NULL) (hnodup : (a :: L).Nodup)
    (h0 : NULL ∉ a :: L) (hn : ndrive ∉ a :: L) (hlink : m.next ndrive = NULL) (hf : L.length < fuel) :
    ∃ m' L', m.registerLoop ndrive fuel a = some m' ∧ Registered m ndrive a L m' L' := by
  have hna : a ≠ ndrive := by
    rintro rfl
    simp at hn
  induction L generalizing a fuel with
  | nil =>
    obtain ⟨fuel, rfl⟩ := Nat.exists_eq_succ_of_ne_zero (Nat.ne_zero_of_lt hf)
    rw [registerLoop]
    by_cases hid : (m.drive a).driveId = (m.drive ndrive).driveId
    · rw [if_pos hid]
      exact ⟨_, [], rfl, registered_refresh hlink hid⟩
    · have hend : m.next a = NULL := hL.1
      rw [if_neg hid, if_pos hend]
      refine ⟨_, [ndrive], rfl, rfl, ?_, by simp [hna], by simp, ?_, fun x hx => ?_, fun x hlive _ => hlive⟩
      · simp [hlink, Ne.symm hna]
      · simp [Nettapus.ideRegisterDisk, hid]
      · simp only [List.mem_singleton] at hx
        simp [hx]
  | cons b L ih =>
    obtain ⟨fuel, rfl⟩ := Nat.exists_eq_succ_of_ne_zero (Nat.ne_zero_of_lt hf)
    rw [registerLoop]
    by_cases hid : (m.drive a).driveId = (m.drive ndrive).driveId
    · rw [if_pos hid]
      exact ⟨_, [], rfl, registered_refresh hlink hid⟩
    · obtain ⟨hab, hnd⟩ := List.nodup_cons.1 hnodup
      simp only [List.mem_cons, not_or] at h0 hn
      have hb : m.next a = b := hL.1
      rw [if_neg hid, hb, if_neg (Ne.symm h0.2.1)]
      obtain ⟨m', L', hm', hr⟩ := ih hL.2 hnd (by simp [h0.2]) (by simp [hn.2]) (by simpa using hf) (Ne.symm hn.2.1)
      obtain ⟨hnext, hdrive⟩ := hr.frame a hab
      have hsub : b :: L' ⊆ ndrive :: b :: L := by
        intro x hx
        rcases List.mem_cons.1 hx with rfl | hx
        · simp
        · rcases List.mem_cons.1 (hr.sub hx) with rfl | hx <;> simp [*]
      have ha : a ∉ b :: L' := fun h => (List.mem_cons.1 (hsub h)).elim hna hab
      refine ⟨m', b :: L', hm', hr.first, ⟨?_, hr.linked⟩, List.nodup_cons.2 ⟨ha, hr.nodup⟩, hsub, ?_,
        fun x hx => hr.frame x fun h => hx (List.mem_cons_of_mem _ h), fun x hlive hx => hr.live x hlive fun hxn => ?_⟩
      · rw [hnext, hb, front_cons]
      · rw [List.map_cons, hr.drives, hdrive, List.map_cons (l := b :: L), Nettapus.ideRegisterDisk, if_neg hid]
      · have hxb : x ≠ b := by
          rw [hxn]
          exact hn.2.1
        simpa [hxb] using hx hxn

/-- **`ide_register_disk`** does on the list in memory what `ideRegisterDisk` does on the list of the disks. -/
theorem registerDisk_holds (A : Allocator) (disk : IdeNode) (h : m.Holds L drives) :
    ∃ m' L', m.ideRegisterDisk A disk = some m' ∧ m'.Holds L' (Nettapus.ideRegisterDisk disk drives) := by
  unfold IdeMem.ideRegisterDisk
  dsimp only [Allocator.kmalloc]
  set n := A.place m.live with hn
  have hnew : n ∉ L := fun hm => A.fresh m.live (Finset.mem_toList.1 (h.live hm))
  have hdrives : L.map (Function.update m.drive n disk) = drives := by
    rw [← h.drives]
    refine List.map_congr_left fun x hx => Function.update_of_ne ?_ _ _
    rintro rfl
    exact hnew hx
  have hlinked : Linked (Function.update m.next n NULL) L NULL := by
    refine h.linked.congr fun x hx => Function.update_of_ne ?_ _ _
    rintro rfl
    exact hnew hx
  cases L with
  | nil =>
    have hfirst : m.firstDrive = NULL := h.first
    rw [if_pos hfirst]
    refine ⟨_, [n], rfl, rfl, by simp, by simp, ?_, ?_, ?_⟩
    · simpa using (A.ne_null m.live).symm
    · simp [hn]
    · simp [← h.drives, Nettapus.ideRegisterDisk]
  | cons a L =>
    have ha : m.firstDrive = a := h.first
    have ha0 : a ≠ NULL := fun h0 => h.notNull (h0 ▸ List.mem_cons_self)
    have hlen : L.length < (insert n m.live).card + 1 := by
      have hle := h.length_le
      have hcard : m.live.card ≤ (insert n m.live).card := Finset.card_le_card (Finset.subset_insert _ _)
      rw [List.length_cons] at hle
      omega
    rw [if_neg (ha ▸ ha0)]
    obtain ⟨m', L', hm', hr⟩ := registerLoop_spec (m := { m with
      drive := Function.update m.drive n disk, next := Function.update m.next n NULL, live := insert n m.live })
      hlinked h.nodup h.notNull hnew (Function.update_self _ _ _) hlen
    refine ⟨m', a :: L', (congrArg (registerLoop _ n _) ha).trans hm', hr.first.trans h.first, hr.linked, hr.nodup, fun h0 => ?_, fun x hx => ?_, ?_⟩
    · rcases List.mem_cons.1 h0 with h0 | h0
      · exact ha0 h0.symm
      · rcases List.mem_cons.1 (hr.sub h0) with h0 | h0
        · exact A.ne_null m.live h0.symm
        · exact h.notNull (List.mem_cons_of_mem _ h0)
    · have hmem : x ∈ insert n m.live := by
        rcases List.mem_cons.1 hx with rfl | hx
        · exact Finset.mem_insert_of_mem (Finset.mem_toList.1 (h.live List.mem_cons_self))
        · rcases List.mem_cons.1 (hr.sub hx) with rfl | hx
          · exact Finset.mem_insert_self _ _
          · exact Finset.mem_insert_of_mem (Finset.mem_toList.1 (h.live (List.mem_cons_of_mem _ hx)))
      refine Finset.mem_toList.2 (hr.live x hmem fun hxn => ?_)
      rcases List.mem_cons.1 hx with rfl | hx
      · exact absurd (hxn ▸ List.mem_cons_self) hnew
      · exact hx
    · rw [hr.drives, hdrives]
      simp

/-- All calls of a sequence. -/
theorem registerAll_holds (h : m.Holds L drives) : ∃ m' L', m.registerAll A calls = some m' ∧
    m'.Holds L' (calls.foldl (fun drives disk => Nettapus.ideRegisterDisk disk drives) drives) := by
  induction calls generalizing m L drives with
  | nil => exact ⟨m, L, rfl, h⟩
  | cons disk calls ih =>
    obtain ⟨m₁, L₁, hm₁, h₁⟩ := registerDisk_holds A disk h
    obtain ⟨m₂, L₂, hm₂, h₂⟩ := ih h₁
    refine ⟨m₂, L₂, ?_, h₂⟩
    simpa [registerAll, hm₁] using hm₂

/-! ## `ide_find_drive` -/

/-- `ide_find_drive` returns a drive with this data, or `NULL`. -/
def Answers (m : IdeMem) (id : ℕ) : Option IdeNode → Prop
  | none => m.ideFindDrive id = some NULL
  | some disk => ∃ i, m.ideFindDrive id = some i ∧ i ≠ NULL ∧ m.drive i = disk

theorem findLoop_spec (id : ℕ) (hL : Linked m.next L NULL) (h0 : NULL ∉ L) (hf : L.length < fuel) :
    match find IdeNode.driveId (L.map m.drive) id with
    | none => m.findLoop id fuel (front L NULL) = some NULL
    | some disk => ∃ i, m.findLoop id fuel (front L NULL) = some i ∧ i ≠ NULL ∧ m.drive i = disk := by
  induction L generalizing fuel with
  | nil =>
    obtain ⟨fuel, rfl⟩ := Nat.exists_eq_succ_of_ne_zero (Nat.ne_zero_of_lt hf)
    simp [findLoop]
  | cons a L ih =>
    obtain ⟨fuel, rfl⟩ := Nat.exists_eq_succ_of_ne_zero (Nat.ne_zero_of_lt hf)
    have ha : a ≠ NULL := fun ha => h0 (ha ▸ List.mem_cons_self)
    rw [front_cons, findLoop, if_neg ha, List.map_cons, find_cons]
    by_cases hid : (m.drive a).driveId = id
    · rw [if_pos hid, if_pos hid]
      exact ⟨a, rfl, ha, rfl⟩
    · rw [if_neg hid, if_neg hid, hL.1]
      exact ih hL.2 (fun h => h0 (List.mem_cons_of_mem _ h)) (Nat.lt_of_succ_lt_succ hf)

theorem Answers.unique {d d' : Option IdeNode} (h : m.Answers id d) (h' : m.Answers id d') : d = d' := by
  cases d with
  | none => cases d' <;> simp_all [Answers]
  | some d =>
    obtain ⟨i, hi, hi0, rfl⟩ := h
    cases d' with
    | none => simp_all [Answers]
    | some d' =>
      obtain ⟨j, hj, -, rfl⟩ := h'
      rw [Option.some.inj (hi.symm.trans hj)]

/-- **`ide_find_drive`** finds the first disk with the number. -/
theorem Holds.answers_iff (h : m.Holds L drives) {d : Option IdeNode} :
    m.Answers id d ↔ d = find IdeNode.driveId drives id := by
  have hspec := findLoop_spec id h.linked h.notNull (Nat.lt_succ_of_le h.length_le)
  rw [← h.first, h.drives] at hspec
  have hfind : m.Answers id (find IdeNode.driveId drives id) := by
    unfold Answers ideFindDrive
    cases hd : find IdeNode.driveId drives id <;> rw [hd] at hspec <;> exact hspec
  exact ⟨fun ha => ha.unique hfind, fun hd => hd ▸ hfind⟩

end IdeMem

/-! ## The list of the disks -/

/-- The list after some calls. -/
def listed (calls : List IdeNode) : List IdeNode := calls.foldl (fun drives disk => ideRegisterDisk disk drives) []

@[simp] theorem listed_append (calls : List IdeNode) (disk : IdeNode) :
    listed (calls ++ [disk]) = ideRegisterDisk disk (listed calls) := by
  simp [listed]

/-- **A disk that is refreshed is the last one.** -/
theorem ideRegisterDisk_old {p q : List IdeNode} {i : IdeNode} (hp : disk.driveId ∉ p.map IdeNode.driveId)
    (hi : i.driveId = disk.driveId) : ideRegisterDisk disk (p ++ i :: q) = p ++ [disk] := by
  induction p with
  | nil => simp [ideRegisterDisk, hi]
  | cons x p ih =>
    simp only [List.map_cons, List.mem_cons, not_or] at hp
    simp [ideRegisterDisk, Ne.symm hp.1, ih hp.2]

/-- A list of disks that is the map of the calls. -/
structure Maps (calls drives : List IdeNode) : Prop where
  nodup : (drives.map IdeNode.driveId).Nodup
  find_eq : ∀ k, find IdeNode.driveId drives k = latest IdeNode.driveId calls k
  settled : ∀ k, Settled IdeNode.driveId calls k ↔
    k ∉ drives.map IdeNode.driveId ∨ ∃ p i, drives = p ++ [i] ∧ i.driveId = k

theorem Maps.mem_iff (h : Maps calls drives) {k : ℕ} :
    k ∈ drives.map IdeNode.driveId ↔ k ∈ calls.map IdeNode.driveId := by
  have hnone : find IdeNode.driveId drives k = none ↔ k ∉ drives.map IdeNode.driveId := find_eq_none
  rw [h.find_eq k, latest_eq_none] at hnone
  exact not_iff_not.1 hnone.symm

theorem maps_nil : Maps [] [] := by
  refine ⟨by simp, by simp, fun k => ?_⟩
  exact iff_of_true (settled_of_notMem (by simp)) (Or.inl (by simp))

/-- A new number. -/
theorem Maps.new (h : Maps calls drives) (hd : disk.driveId ∉ drives.map IdeNode.driveId) :
    Maps (calls ++ [disk]) (drives ++ [disk]) := by
  refine ⟨?_, fun k => ?_, fun k => ?_⟩
  · rw [List.map_append, List.nodup_append]
    refine ⟨h.nodup, by simp, fun a ha b hb => ?_⟩
    simp only [List.map_cons, List.map_nil, List.mem_singleton] at hb
    rintro rfl
    exact hd (hb ▸ ha)
  · rw [latest_append, ← h.find_eq]
    by_cases hk : k ∈ drives.map IdeNode.driveId
    · have hne : disk.driveId ≠ k := by
        rintro rfl
        exact hd hk
      rw [find_append_of_mem hk, if_neg hne]
    · rw [find_append_of_notMem hk, find_cons, find_nil, find_eq_none.2 hk]
  · rw [settled_append_new (fun hc => hd (h.mem_iff.2 hc)), ← h.mem_iff]
    constructor
    · intro hk
      by_cases hkd : disk.driveId = k
      · exact Or.inr ⟨drives, disk, rfl, hkd⟩
      · exact Or.inl (by simpa [Ne.symm hkd] using hk)
    · rintro (hk | ⟨p, i, hp, rfl⟩)
      · simp only [List.map_append, List.mem_append, not_or] at hk
        exact hk.1
      · rw [List.append_singleton_inj] at hp
        exact hp.2 ▸ hd

/-- The number of the last disk. -/
theorem Maps.last {p : List IdeNode} {i : IdeNode} (h : Maps calls (p ++ [i])) (hi : i.driveId = disk.driveId) :
    Maps (calls ++ [disk]) (p ++ [disk]) := by
  have hids : (p ++ [disk]).map IdeNode.driveId = (p ++ [i]).map IdeNode.driveId := by simp [hi]
  have hp : disk.driveId ∉ p.map IdeNode.driveId := by
    have hnd := h.nodup
    rw [List.map_append, List.nodup_append] at hnd
    intro hm
    exact hnd.2.2 _ hm i.driveId (by simp) hi.symm
  have hmem : disk.driveId ∈ calls.map IdeNode.driveId := h.mem_iff.1 (by simp [hi])
  refine ⟨hids ▸ h.nodup, fun k => ?_, fun k => ?_⟩
  · rw [latest_append, ← h.find_eq]
    by_cases hk : k ∈ p.map IdeNode.driveId
    · have hne : disk.driveId ≠ k := by
        rintro rfl
        exact hp hk
      rw [find_append_of_mem hk, find_append_of_mem hk, if_neg hne]
    · rw [find_append_of_notMem hk, find_append_of_notMem hk, find_cons, find_cons, hi]
      split_ifs <;> simp
  · rw [settled_append_old hmem, h.settled, hids]
    refine or_congr_right ⟨?_, ?_⟩
    · rintro ⟨q, j, hq, rfl⟩
      rw [List.append_singleton_inj] at hq
      exact ⟨p, disk, rfl, by rw [← hq.2, hi]⟩
    · rintro ⟨q, j, hq, rfl⟩
      rw [List.append_singleton_inj] at hq
      exact ⟨p, i, rfl, by rw [← hq.2, hi]⟩

/-- **One more call** on a list that is a map: it stays one if the number is settled, and otherwise the disks behind
the refreshed one are gone. -/
theorem Maps.step (h : Maps calls drives) :
    (Settled IdeNode.driveId calls disk.driveId → Maps (calls ++ [disk]) (ideRegisterDisk disk drives)) ∧
    (¬ Settled IdeNode.driveId calls disk.driveId → ∃ e ∈ drives, e.driveId ≠ disk.driveId ∧
      find IdeNode.driveId drives e.driveId = some e ∧
      find IdeNode.driveId (ideRegisterDisk disk drives) e.driveId = none) := by
  constructor
  · intro hs
    rcases (h.settled _).1 hs with hd | ⟨p, i, rfl, hi⟩
    · have hnew : ∀ d ∈ drives, d.driveId ≠ disk.driveId := fun d hd' he => hd (he ▸ List.mem_map_of_mem hd')
      rw [ideRegisterDisk_new hnew]
      exact h.new hd
    · have hp : disk.driveId ∉ p.map IdeNode.driveId := by
        have hnd := h.nodup
        rw [List.map_append, List.nodup_append] at hnd
        intro hm
        exact hnd.2.2 _ hm i.driveId (by simp) hi.symm
      rw [ideRegisterDisk_old hp hi]
      exact h.last hi
  · intro hs
    rw [h.settled, not_or, not_not] at hs
    obtain ⟨hmem, hlast⟩ := hs
    obtain ⟨i, hi, hid⟩ := List.mem_map.1 hmem
    obtain ⟨p, q, rfl⟩ := List.append_of_mem hi
    have hnd := h.nodup
    simp only [List.map_append, List.map_cons, List.nodup_append, List.nodup_cons] at hnd
    obtain ⟨hndp, ⟨hiq, -⟩, hapart⟩ := hnd
    have hp : disk.driveId ∉ p.map IdeNode.driveId := fun hm => hapart _ hm i.driveId (by simp) hid.symm
    cases q with
    | nil => exact absurd ⟨p, i, rfl, hid⟩ hlast
    | cons e q =>
      -- the disk behind the refreshed one
      have hei : e.driveId ≠ i.driveId := fun he => hiq (by simp [he])
      have hep : e.driveId ∉ p.map IdeNode.driveId := fun hm => hapart _ hm e.driveId (by simp) rfl
      refine ⟨e, by simp, hid ▸ hei, ?_, ?_⟩
      · rw [find_append_of_notMem hep]
        simp [Ne.symm hei]
      · rw [ideRegisterDisk_old hp hid, find_eq_none]
        simp [hep, ← hid, hei]

/-! ## The law -/

/-- **The list is a map**: after the calls each number gives the data of the last call with it, and no call takes away a
disk with another number. -/
structure KeyedLaw (A : Allocator) (m : IdeMem) (calls : List IdeNode) : Prop where
  latest : ∃ m', m.registerAll A calls = some m' ∧ ∀ id, m'.Answers id (latest IdeNode.driveId calls id)
  kept : ∀ pre disk rest m₁ m₂, calls = pre ++ disk :: rest → m.registerAll A pre = some m₁ →
    m₁.ideRegisterDisk A disk = some m₂ →
      ∀ id d, id ≠ disk.driveId → m₁.Answers id (some d) → m₂.Answers id (some d)

/-- As long as each call finds its number settled, the list is a map. -/
theorem maps_listed (h : NoReturn IdeNode.driveId calls) : Maps calls (listed calls) := by
  induction calls using List.reverseRecOn with
  | nil => exact maps_nil
  | append_singleton calls disk ih =>
    obtain ⟨h1, h2⟩ := noReturn_append.1 h
    rw [listed_append]
    exact (ih h1).step.1 h2

/-- **When the list of disks is a map.** Calls with any data keep the map exactly when no call repeats a number after a
call with a new one. -/
theorem ide_map_iff (A : Allocator) (drive : ℕ → IdeNode) (next : ℕ → ℕ) (live : Finset ℕ) (calls : List IdeNode) :
    KeyedLaw A (IdeMem.init drive next live) calls ↔ NoReturn IdeNode.driveId calls := by
  have hlisted : ∀ calls, ∃ m L, (IdeMem.init drive next live).registerAll A calls = some m ∧
      m.Holds L (listed calls) := fun calls => IdeMem.registerAll_holds (IdeMem.holds_init drive next live)
  constructor
  · -- a prefix of the calls after the other
    intro h
    have hpre : ∀ pre rest, calls = pre ++ rest → NoReturn IdeNode.driveId pre := by
      intro pre
      induction pre using List.reverseRecOn with
      | nil => simp
      | append_singleton pre disk ih =>
        intro rest hrest
        have hpre := ih (disk :: rest) (by simp [hrest])
        refine noReturn_append.2 ⟨hpre, ?_⟩
        by_contra hs
        obtain ⟨e, -, hne, hbefore, hafter⟩ := (maps_listed hpre).step.2 hs
        obtain ⟨m₁, L₁, hm₁, h₁⟩ := hlisted pre
        obtain ⟨m₂, L₂, hm₂, h₂⟩ := IdeMem.registerDisk_holds A disk h₁
        have hkept := h.kept pre disk rest m₁ m₂ (by simp [hrest]) hm₁ hm₂ e.driveId e hne (h₁.answers_iff.2 hbefore.symm)
        rw [h₂.answers_iff, hafter] at hkept
        cases hkept
    exact hpre calls [] (by simp)
  · intro h
    refine ⟨?_, ?_⟩
    · obtain ⟨m, L, hm, hh⟩ := hlisted calls
      exact ⟨m, hm, fun id => hh.answers_iff.2 ((maps_listed h).find_eq id).symm⟩
    · rintro pre disk rest m₁ m₂ rfl hm₁ hm₂ id d hid hd
      have hpre : NoReturn IdeNode.driveId (pre ++ [disk]) := by
        intro a x b c e hx
        exact h a x b c (e ++ rest) (by simpa using congrArg (· ++ rest) hx)
      obtain ⟨m, L, hm, hh⟩ := hlisted pre
      obtain rfl := Option.some.inj (hm.symm.trans hm₁)
      obtain ⟨m', L', hm', hh'⟩ := IdeMem.registerDisk_holds A disk hh
      obtain rfl := Option.some.inj (hm'.symm.trans hm₂)
      rw [hh.answers_iff, (maps_listed (noReturn_append.1 hpre).1).find_eq] at hd
      rw [hh'.answers_iff, ← listed_append, (maps_listed hpre).find_eq, latest_append, if_neg (Ne.symm hid)]
      exact hd

/-! ## A disk that comes again -/

/-- The disks 0 and 1, and new data for the disk 0. -/
def threeCalls : List IdeNode :=
  [⟨⟨100, 0⟩, 0, 0x1F0, 0x3F6, 0⟩, ⟨⟨200, 0⟩, 1, 0x1F0, 0x3F6, 1⟩, ⟨⟨300, 0⟩, 0, 0x1F0, 0x3F6, 0⟩]

/-- **The disk 1 is lost** when the disk 0 is registered again. -/
theorem ide_disk_lost :
    ((IdeMem.init (fun _ => ⟨⟨0, 0⟩, 0, 0, 0, 0⟩) (fun _ => 0) ∅).registerAll growing threeCalls).map
      (fun m => (m.ideFindDrive 0, m.ideFindDrive 1)) = some (some 1, some NULL) ∧
    ¬ KeyedLaw growing (IdeMem.init (fun _ => ⟨⟨0, 0⟩, 0, 0, 0, 0⟩) (fun _ => 0) ∅) threeCalls := by
  have hrun : ((IdeMem.init (fun _ => ⟨⟨0, 0⟩, 0, 0, 0, 0⟩) (fun _ => 0) ∅).registerAll growing threeCalls).map
      (fun m => (m.ideFindDrive 0, m.ideFindDrive 1)) = some (some 1, some NULL) := by decide
  refine ⟨hrun, fun h => ?_⟩
  obtain ⟨m, hm, hlast⟩ := h.latest
  rw [hm] at hrun
  obtain ⟨i, hi, hi0, -⟩ := hlast 1
  simp only [Option.map_some, Option.some.injEq, Prod.mk.injEq] at hrun
  exact hi0 (Option.some.inj (hi.symm.trans hrun.2))

end Nettapus
