import Nettapus.Code.DiskLock
import Nettapus.Proof.Holders

/-!
# The mutex of a disk

Every run of the two functions is one of the semaphores (`DiskKernel.reach_kernel`). A task holds the mutex of a disk
while it is between the two calls (`InsideAt`), and once more for every call that came back before the second one; this
is kept for each task by its own steps and by those of the others (`TaskOk`), and so by all of them (`reach_diskInv`).

`disk_mutex_iff`: the mutex is free whenever no task is in a call, just if no call that has returned had a range behind
the end of the disk, or no sectors.
-/

namespace Nettapus

open Runs

variable {disks : List ℕ} {s s' : DiskKernel} {e : DiskEvent} {m : ℕ → ℕ} {x t : ℕ} {c : DriveCall} {p p' : Pc}
  {g : Bool} {pl : DiskPlace} {cnt lost : ℕ → ℕ} {stat : ℕ}

/-! ## Steps -/

/-- The range of the call is on the disk, and not empty. -/
def DriveCall.Releases (c : DriveCall) : Prop :=
  u64 (c.op.lba + c.op.amount) ≤ c.d.dev.sectorCount ∧ c.op.amount ≠ 0

instance : Decidable c.Releases := inferInstanceAs (Decidable (_ ∧ _))

/-- The steps of the machine. -/
inductive DiskStep (disks : List ℕ) (s s' : DiskKernel) : Prop
  | kernel (e : Event) (k : Kernel) (hok : s.Permits disks e) (hk : s.kernel.step e = some k)
      (heq : s' = { s with kernel := k })
  | null (hpc : s.kernel.pc s.cur = .user) (hpl : s.place s.cur = .outside)
      (heq : s' = s.ret none ERR_INVALID_PARAM)
  | enter (c : DriveCall) (k : Kernel) (hpl : s.place s.cur = .outside)
      (hk : s.kernel.step (.call (.acquire c.d.mutex)) = some k)
      (heq : s' = { s.setPlace (.acquiring c) with kernel := k })
  | early (c : DriveCall) (stat : ℕ) (hpc : s.kernel.pc s.cur = .user) (hpl : s.place s.cur = .acquiring c)
      (hc : ¬ c.Releases) (heq : s' = s.ret (some c) stat)
  | work (c : DriveCall) (hpc : s.kernel.pc s.cur = .user) (hpl : s.place s.cur = .acquiring c) (hc : c.Releases)
      (heq : s' = s.setPlace (.working c))
  | release (c : DriveCall) (k : Kernel) (stat : ℕ) (devs : ℕ → Bytes.Mem) (hpl : s.place s.cur = .working c)
      (hk : s.kernel.step (.call (.release c.d.mutex)) = some k)
      (heq : s' = { s.setPlace (.releasing c stat) with kernel := k, devs := devs })
  | done (c : DriveCall) (stat : ℕ) (hpc : s.kernel.pc s.cur = .user) (hpl : s.place s.cur = .releasing c stat)
      (heq : s' = s.ret (some c) stat)

theorem isOutside_iff : pl.isOutside = true ↔ pl = .outside := by
  cases pl <;> simp [DiskPlace.isOutside]

theorem request_invalid (h : c.d.request c.op.lba c.op.amount = .invalid) : ¬ c.Releases := by
  unfold Drive.request at h
  split_ifs at h with hrange
  exact fun hc => absurd hc.1 (not_le.2 hrange)

theorem request_empty (h : c.d.request c.op.lba c.op.amount = .empty) : ¬ c.Releases := by
  unfold Drive.request at h
  split_ifs at h with hrange hzero
  exact fun hc => hc.2 hzero

theorem request_releases (h1 : c.d.request c.op.lba c.op.amount ≠ .invalid)
    (h2 : c.d.request c.op.lba c.op.amount ≠ .empty) : c.Releases := by
  unfold Drive.request at h1 h2
  split_ifs at h1 h2 with hrange hzero
  · exact absurd rfl h1
  · exact absurd rfl h2
  all_goals exact ⟨not_lt.1 hrange, hzero⟩

theorem DiskKernel.step_cases (hs : s.step disks e = some s') : DiskStep disks s s' := by
  cases e with
  | kernel e =>
    simp only [DiskKernel.step] at hs
    split_ifs at hs with hok
    obtain ⟨k, hk, rfl⟩ := Option.map_eq_some_iff.1 hs
    exact .kernel e k hok hk rfl
  | enter f d buf lba amount =>
    simp only [DiskKernel.step] at hs
    split_ifs at hs with hg
    obtain ⟨-, hpc, hout⟩ := hg
    have hpl := isOutside_iff.1 hout
    cases d with
    | none =>
      obtain rfl := Option.some.inj hs
      exact .null hpc hpl rfl
    | some d =>
      cases buf with
      | none =>
        obtain rfl := Option.some.inj hs
        exact .null hpc hpl rfl
      | some buf =>
        simp only [DiskKernel.enter] at hs
        split_ifs at hs with hd
        obtain ⟨k, hk, rfl⟩ := Option.map_eq_some_iff.1 hs
        exact .enter ⟨d, f.op buf lba amount⟩ k hpl hk rfl
  | goOn io =>
    simp only [DiskKernel.step] at hs
    split_ifs at hs with hpc
    unfold DiskKernel.goOn at hs
    cases hpl : s.place s.cur with
    | outside =>
      rw [hpl] at hs
      cases hs
    | acquiring c =>
      rw [hpl] at hs
      dsimp only at hs
      cases hreq : c.d.request c.op.lba c.op.amount with
      | invalid =>
        rw [hreq] at hs
        exact .early c _ hpc hpl (request_invalid hreq) (Option.some.inj hs).symm
      | empty =>
        rw [hreq] at hs
        exact .early c _ hpc hpl (request_empty hreq) (Option.some.inj hs).symm
      | unhandled | other | ide =>
        have hc : c.Releases := request_releases (by rw [hreq]; exact nofun) (by rw [hreq]; exact nofun)
        rw [hreq] at hs
        exact .work c hpc hpl hc (Option.some.inj hs).symm
    | working c =>
      rw [hpl] at hs
      obtain ⟨k, hk, rfl⟩ := Option.map_eq_some_iff.1 hs
      exact .release c k _ _ hpl hk rfl
    | releasing c stat =>
      rw [hpl] at hs
      exact .done c stat hpc hpl (Option.some.inj hs).symm

/-- The tasks outside, with the mutexes of the disks free. -/
def DiskInit (m : ℕ → ℕ) (disks : List ℕ) (s : DiskKernel) : Prop :=
  SyncInit m s.kernel ∧ (∀ x ∈ disks, x ≠ NULL ∧ m x = 1) ∧ (∀ t, s.place t = .outside) ∧ s.returned = []

/-- **The runs are runs of the semaphores.** -/
theorem DiskKernel.reach_kernel (hs : Reach (DiskInit m disks) (DiskKernel.step disks) Any s) :
    Reach (SyncInit m) Kernel.step Any s.kernel := by
  refine hs.inv (I := fun s => Reach (SyncInit m) Kernel.step Any s.kernel) (fun s h => .init h.1)
    fun s e s' ih _ hst => ?_
  cases DiskKernel.step_cases hst with
  | kernel e k _ hk heq => exact heq ▸ ih.step trivial hk
  | enter c k _ hk heq => exact heq ▸ ih.step trivial hk
  | release c k _ _ _ hk heq => exact heq ▸ ih.step trivial hk
  | null _ _ heq => exact heq ▸ ih
  | early _ _ _ _ _ heq => exact heq ▸ ih
  | work _ _ _ _ heq => exact heq ▸ ih
  | done _ _ _ _ heq => exact heq ▸ ih

/-! ## One task -/

/-- In a call for the semaphore `x`. -/
def Pc.On (p : Pc) (x : ℕ) : Prop := ∃ st, p = .call st (.acquire x) ∨ p = .call st (.release x)

theorem not_on_user : ¬ Pc.user.On x := by
  rintro ⟨st, hst | hst⟩
  · cases hst
  · cases hst

/-- Where a task is in the code at a place in the functions. -/
def PlaceOk (disks : List ℕ) (p : Pc) : DiskPlace → Prop
  | .outside => ∀ x ∈ disks, ¬ p.On x
  | .acquiring c => p = .user ∨ ∃ st, p = .call st (.acquire c.d.mutex)
  | .working c => p = .user ∧ c.Releases
  | .releasing c _ => c.Releases ∧ (p = .user ∨ ∃ st, p = .call st (.release c.d.mutex))

/-- **The task is between the two calls for the mutex `x`**: it was granted the mutex, and did not give it up. -/
def InsideAt (p : Pc) (g : Bool) (x : ℕ) : DiskPlace → Prop
  | .outside => False
  | .acquiring c => c.d.mutex = x ∧ g = true
  | .working c => c.d.mutex = x
  | .releasing c _ => c.d.mutex = x ∧ p = .call .body (.release x)

instance : Decidable (InsideAt p g x pl) := by
  cases pl <;> unfold InsideAt <;> infer_instance

/-- The mutexes of the disks that a task holds: `lost` of its calls did not release one, and it may be inside. -/
structure TaskOk (disks : List ℕ) (p : Pc) (g : Bool) (pl : DiskPlace) (cnt lost : ℕ → ℕ) : Prop where
  place : PlaceOk disks p pl
  granted : ∀ c, pl = .acquiring c → p = .user → c.d.mutex ≠ NULL → g = true
  count : ∀ x ∈ disks, cnt x = lost x + if InsideAt p g x pl then 1 else 0

theorem TaskOk.outside {g' : Bool} (h : TaskOk disks p g .outside cnt lost) (hp : ∀ x ∈ disks, ¬ p'.On x) :
    TaskOk disks p' g' .outside cnt lost :=
  ⟨hp, nofun, h.count⟩

theorem PlaceOk.goes (h : PlaceOk disks p pl) (hgo : p.Goes p') : PlaceOk disks p' pl := by
  rcases hgo with ⟨c, rfl, rfl⟩ | ⟨st, st', c, rfl, rfl, -⟩
  · -- behind a call
    cases pl with
    | outside => exact fun x _ => not_on_user
    | acquiring c => exact .inl rfl
    | working c => exact absurd h.1 nofun
    | releasing c stat => exact ⟨h.1, .inl rfl⟩
  · cases pl with
    | outside =>
      rintro x hx ⟨st'', hon | hon⟩
      · obtain ⟨-, rfl⟩ := Pc.call.inj hon
        exact h x hx ⟨st, .inl rfl⟩
      · obtain ⟨-, rfl⟩ := Pc.call.inj hon
        exact h x hx ⟨st, .inr rfl⟩
    | acquiring c =>
      rcases h with h | ⟨st'', h⟩
      · cases h
      · obtain ⟨-, rfl⟩ := Pc.call.inj h
        exact .inr ⟨st', rfl⟩
    | working c => exact absurd h.1 nofun
    | releasing c stat =>
      obtain ⟨hc, h | ⟨st'', h⟩⟩ := h
      · cases h
      · obtain ⟨-, rfl⟩ := Pc.call.inj h
        exact ⟨hc, .inr ⟨st', rfl⟩⟩

/-- The task does not get to the critical section of a release by going on. -/
theorem Pc.Goes.not_release (hgo : p.Goes p') (y : ℕ) : p' ≠ .call .body (.release y) := by
  rintro rfl
  rcases hgo with ⟨c, -, h⟩ | ⟨st, st', c, -, h, hbody⟩
  · cases h
  · obtain ⟨rfl, rfl⟩ := Pc.call.inj h
    obtain ⟨q, hq⟩ := hbody rfl
    cases hq

/-- A task goes on, and is granted nothing. -/
theorem TaskOk.goes (h : TaskOk disks p g pl cnt lost) (hgo : p.Goes p') (hp : ∀ x, p ≠ .call .body (.release x))
    (hg : ∀ x, p = .call .ret (.acquire x) → g = true) : TaskOk disks p' g pl cnt lost := by
  refine ⟨h.place.goes hgo, ?_, fun x hx => ?_⟩
  · rintro c rfl rfl -
    rcases hgo with ⟨c', rfl, -⟩ | ⟨st, st', c', -, hcall, -⟩
    · rcases h.place with hu | ⟨st, hst⟩
      · cases hu
      · exact hg _ (by rw [(Pc.call.inj hst).2])
    · cases hcall
  · rw [h.count x hx]
    cases pl with
    | outside | acquiring | working => rfl
    | releasing c stat =>
      have hbefore : ¬ InsideAt p g x (.releasing c stat) := fun hin => hp x hin.2
      have hafter : ¬ InsideAt p' g x (.releasing c stat) := fun hin => hgo.not_release x hin.2
      rw [if_neg hbefore, if_neg hafter]

/-- **A task in `acquire_semaphore` is granted the semaphore.** -/
theorem TaskOk.grant (h : TaskOk disks p false pl cnt lost) (hp : ∃ st, p = .call st (.acquire x)) :
    TaskOk disks p true pl (fun y => if y = x then cnt y + 1 else cnt y) lost := by
  obtain ⟨st, rfl⟩ := hp
  refine ⟨h.place, fun _ _ hu => (by cases hu), fun y hy => ?_⟩
  have hcount := h.count y hy
  have hplace := h.place
  cases pl with
  | outside =>
    have hne : y ≠ x := by
      rintro rfl
      exact hplace y hy ⟨st, .inl rfl⟩
    rw [if_neg hne, hcount]
    rfl
  | acquiring c =>
    rcases hplace with hu | ⟨st', hst⟩
    · cases hu
    obtain ⟨-, hx⟩ := Pc.call.inj hst
    obtain rfl : x = c.d.mutex := Call.acquire.inj hx
    have hbefore : ¬ InsideAt (.call st (.acquire c.d.mutex)) false y (.acquiring c) := fun hin => by cases hin.2
    rw [if_neg hbefore] at hcount
    by_cases hy' : y = c.d.mutex
    · have hafter : InsideAt (.call st (.acquire c.d.mutex)) true y (.acquiring c) := ⟨hy'.symm, rfl⟩
      rw [if_pos hy', if_pos hafter, hcount]
    · have hafter : ¬ InsideAt (.call st (.acquire c.d.mutex)) true y (.acquiring c) := fun hin => hy' hin.1.symm
      rw [if_neg hy', if_neg hafter, hcount]
  | working c => exact absurd hplace.1 nofun
  | releasing c stat =>
    obtain ⟨-, hu | ⟨st', hst⟩⟩ := hplace
    · cases hu
    · cases hst

/-- **A task gives the semaphore up.** -/
theorem TaskOk.give (h : TaskOk disks p g pl cnt lost) (hp : p = .call .body (.release x)) (hgo : p.Goes p') :
    TaskOk disks p' g pl (fun y => if y = x then cnt y - 1 else cnt y) lost := by
  subst hp
  refine ⟨h.place.goes hgo, ?_, fun y hy => ?_⟩
  · rintro c rfl rfl -
    rcases hgo with ⟨c', hret, -⟩ | ⟨st, st', c', -, hcall, -⟩
    · cases hret
    · cases hcall
  have hcount := h.count y hy
  have hplace := h.place
  cases pl with
  | outside =>
    have hne : y ≠ x := by
      rintro rfl
      exact hplace y hy ⟨.body, .inr rfl⟩
    rw [if_neg hne, hcount]
    rfl
  | acquiring c =>
    rcases hplace with hu | ⟨st', hst⟩
    · cases hu
    · cases hst
  | working c => exact absurd hplace.1 nofun
  | releasing c stat =>
    obtain ⟨-, hu | ⟨st', hst⟩⟩ := hplace
    · cases hu
    obtain ⟨-, hx⟩ := Pc.call.inj hst
    obtain rfl : x = c.d.mutex := Call.release.inj hx
    have hafter : ¬ InsideAt p' g y (.releasing c stat) := fun hin => hgo.not_release y hin.2
    rw [if_neg hafter]
    by_cases hy' : y = c.d.mutex
    · subst hy'
      have hbefore : InsideAt (.call .body (.release c.d.mutex)) g c.d.mutex (.releasing c stat) := ⟨rfl, rfl⟩
      rw [if_pos hbefore] at hcount
      rw [if_pos rfl, hcount]
      rfl
    · have hbefore : ¬ InsideAt (.call .body (.release c.d.mutex)) g y (.releasing c stat) :=
        fun hin => hy' hin.1.symm
      rw [if_neg hbefore] at hcount
      rw [if_neg hy', hcount]

/-! ## The places of a task -/

variable {g' : Bool} {lost' : ℕ → ℕ}

theorem TaskOk.enter (h : TaskOk disks .user g .outside cnt lost) (hnull : ∀ x ∈ disks, x ≠ NULL)
    (hp : c.d.mutex = NULL ∧ p = .user ∨ p = .call .body (.acquire c.d.mutex) ∧ g' = false) :
    TaskOk disks p g' (.acquiring c) cnt lost := by
  rcases hp with ⟨h0, rfl⟩ | ⟨rfl, rfl⟩
  · refine ⟨.inl rfl, ?_, fun x hx => ?_⟩
    · rintro c' hc' - hne
      obtain rfl := DiskPlace.acquiring.inj hc'
      exact absurd h0 hne
    · have hafter : ¬ InsideAt .user g' x (.acquiring c) := fun hin => hnull x hx (hin.1.symm.trans h0)
      rw [if_neg hafter]
      exact h.count x hx
  · refine ⟨.inr ⟨.body, rfl⟩, fun _ _ hu => (by cases hu), fun x hx => ?_⟩
    have hafter : ¬ InsideAt (.call .body (.acquire c.d.mutex)) false x (.acquiring c) := fun hin => by cases hin.2
    rw [if_neg hafter]
    exact h.count x hx

/-- Behind `acquire_semaphore` the mutex was granted. -/
theorem TaskOk.acquired (h : TaskOk disks .user g (.acquiring c) cnt lost) (hnull : ∀ x ∈ disks, x ≠ NULL)
    (hx : x ∈ disks) : InsideAt .user g x (.acquiring c) ↔ c.d.mutex = x := by
  refine ⟨fun hin => hin.1, fun heq => ⟨heq, h.granted c rfl rfl ?_⟩⟩
  rw [heq]
  exact hnull x hx

/-- **An early return keeps the mutex.** -/
theorem TaskOk.early (h : TaskOk disks .user g (.acquiring c) cnt lost) (hnull : ∀ x ∈ disks, x ≠ NULL)
    (hlost : ∀ x, lost' x = lost x + if c.d.mutex = x then 1 else 0) : TaskOk disks .user g .outside cnt lost' := by
  refine ⟨fun x _ => not_on_user, nofun, fun x hx => ?_⟩
  have hafter : ¬ InsideAt .user g x .outside := fun hin => hin
  rw [h.count x hx, if_neg hafter, hlost, Nat.add_zero]
  simp only [h.acquired hnull hx]

theorem TaskOk.work (h : TaskOk disks .user g (.acquiring c) cnt lost) (hnull : ∀ x ∈ disks, x ≠ NULL)
    (hc : c.Releases) : TaskOk disks .user g (.working c) cnt lost := by
  refine ⟨⟨rfl, hc⟩, nofun, fun x hx => ?_⟩
  have hafter : InsideAt .user g x (.working c) ↔ c.d.mutex = x := Iff.rfl
  rw [h.count x hx]
  simp only [h.acquired hnull hx, hafter]

theorem TaskOk.release (h : TaskOk disks .user g (.working c) cnt lost) (hnull : ∀ x ∈ disks, x ≠ NULL)
    (hp : c.d.mutex = NULL ∧ p = .user ∨ p = .call .body (.release c.d.mutex)) :
    TaskOk disks p g (.releasing c stat) cnt lost := by
  have hbefore : ∀ x, InsideAt .user g x (.working c) ↔ c.d.mutex = x := fun _ => Iff.rfl
  rcases hp with ⟨h0, rfl⟩ | rfl
  · refine ⟨⟨h.place.2, .inl rfl⟩, nofun, fun x hx => ?_⟩
    have hne : ¬ c.d.mutex = x := fun heq => hnull x hx (heq.symm.trans h0)
    have hafter : ¬ InsideAt .user g x (.releasing c stat) := fun hin => hne hin.1
    rw [h.count x hx, if_neg hafter]
    simp only [hbefore, if_neg hne]
  · refine ⟨⟨h.place.2, .inr ⟨.body, rfl⟩⟩, nofun, fun x hx => ?_⟩
    have hafter : InsideAt (.call .body (.release c.d.mutex)) g x (.releasing c stat) ↔ c.d.mutex = x :=
      ⟨fun hin => hin.1, fun heq => ⟨heq, by rw [heq]⟩⟩
    rw [h.count x hx]
    simp only [hbefore, hafter]

theorem TaskOk.done (h : TaskOk disks .user g (.releasing c stat) cnt lost) :
    TaskOk disks .user g .outside cnt lost := by
  refine ⟨fun x _ => not_on_user, nofun, fun x hx => ?_⟩
  have hbefore : ¬ InsideAt .user g x (.releasing c stat) := fun hin => by cases hin.2
  have hafter : ¬ InsideAt .user g x .outside := fun hin => hin
  rw [h.count x hx, if_neg hbefore, if_neg hafter]

/-! ## All tasks -/

/-- The call came back with the mutex `x`. -/
def DiskReturn.keeps (r : DiskReturn) (x : ℕ) : Bool := r.call.any fun c => c.d.mutex = x ∧ ¬ c.Releases

/-- The number of calls of the task `t` that did so. -/
def DiskKernel.kept (s : DiskKernel) (t x : ℕ) : ℕ := s.returned.countP fun r => r.task = t ∧ r.keeps x

def DiskInv (disks : List ℕ) (s : DiskKernel) : Prop := ∀ t,
  TaskOk disks (s.kernel.pc t) (s.kernel.granted t) (s.place t) (fun x => (s.kernel.held x).count t) (s.kept t)

/-- The holders of one semaphore change. -/
theorem count_update {held : ℕ → List ℕ} {l : List ℕ} (f : ℕ → ℕ) (hl : l.count t = f ((held x).count t)) :
    (fun y => (Function.update held x l y).count t) =
      fun y => if y = x then f ((held y).count t) else (held y).count t := by
  funext y
  by_cases hy : y = x
  · subst hy
    rw [Function.update_self, if_pos rfl, hl]
  · rw [Function.update_of_ne hy, if_neg hy]

theorem count_snoc_of_ne {l : List ℕ} {u : ℕ} (h : t ≠ u) : (l ++ [u]).count t = l.count t := by
  rw [List.count_append, List.count_eq_zero_of_not_mem (l := [u]) fun hmem => h (List.mem_singleton.1 hmem), Nat.add_zero]

/-- **The task that goes on** in a call of the semaphores. -/
theorem TaskOk.run_cur {k k' : Kernel} {R : List ℕ} {W : Obj → List ℕ} (hsync : SyncInv k R W) (hold : HoldStep k k')
    (hgo : (k.pc k.cur).Goes p)
    (h : TaskOk disks (k.pc k.cur) (k.granted k.cur) pl (fun x => (k.held x).count k.cur) lost) :
    TaskOk disks p (k'.granted k.cur) pl (fun x => (k'.held x).count k.cur) lost := by
  cases hold with
  | same hheld hgranted hpc =>
    rw [hheld, hgranted]
    exact h.goes hgo hpc fun _ => hsync.granted_of_ret
  | take x hpc hheld hgranted =>
    have hplus : (k.held x ++ [k.cur]).count k.cur = (k.held x).count k.cur + 1 := by simp
    rw [hsync.sems.pending x _ hpc] at h
    rw [hheld, hgranted, Function.update_self, count_update (fun n => n + 1) hplus]
    have hnot : ∀ y, k.pc k.cur ≠ .call .body (.release y) := by
      intro y hy
      rw [hpc] at hy
      cases hy
    exact (h.grant ⟨.body, hpc⟩).goes hgo hnot fun _ _ => rfl
  | give x hpc hheld hgranted =>
    have hminus : ((k.held x).erase k.cur).count k.cur = (k.held x).count k.cur - 1 := List.count_erase_self
    rw [hheld, hgranted, count_update (fun n => n - 1) hminus]
    exact h.give hpc hgo
  | pass x f hpc hf hheld hgranted =>
    -- the next holder is waiting, and not the task that releases
    have hne : k.cur ≠ f := by
      rintro rfl
      obtain ⟨st, -, hst⟩ := (hsync.sems.wait x _ hf).2
      rw [hpc] at hst
      cases hst
    have hminus : ((k.held x).erase k.cur ++ [f]).count k.cur = (k.held x).count k.cur - 1 := by
      rw [count_snoc_of_ne hne, List.count_erase_self]
    rw [hheld, hgranted, Function.update_of_ne hne, count_update (fun n => n - 1) hminus]
    exact h.give hpc hgo

/-- **The other tasks** meanwhile: one of them may be handed a semaphore. -/
theorem TaskOk.run_other {k k' : Kernel} {R : List ℕ} {W : Obj → List ℕ} (hsync : SyncInv k R W) (hold : HoldStep k k')
    (htc : t ≠ k.cur) (h : TaskOk disks (k.pc t) (k.granted t) pl (fun x => (k.held x).count t) lost) :
    TaskOk disks (k.pc t) (k'.granted t) pl (fun x => (k'.held x).count t) lost := by
  cases hold with
  | same hheld hgranted hpc => rwa [hheld, hgranted]
  | take x hpc hheld hgranted =>
    have hsame : (k.held x ++ [k.cur]).count t = (k.held x).count t := count_snoc_of_ne htc
    rw [hheld, hgranted, Function.update_of_ne htc, count_update (fun n => n) hsame]
    simpa only [ite_self] using h
  | give x hpc hheld hgranted =>
    have hsame : ((k.held x).erase k.cur).count t = (k.held x).count t := List.count_erase_of_ne htc
    rw [hheld, hgranted, count_update (fun n => n) hsame]
    simpa only [ite_self] using h
  | pass x f hpc hf hheld hgranted =>
    by_cases htf : t = f
    · subst htf
      obtain ⟨hfalse, st, -, hst⟩ := hsync.sems.wait x _ hf
      have hplus : ((k.held x).erase k.cur ++ [t]).count t = (k.held x).count t + 1 := by
        rw [List.count_append, List.count_erase_of_ne htc, List.count_singleton_self]
      rw [hfalse] at h
      rw [hheld, hgranted, Function.update_self, count_update (fun n => n + 1) hplus]
      exact h.grant ⟨st, hst⟩
    · have hsame : ((k.held x).erase k.cur ++ [f]).count t = (k.held x).count t := by
        rw [count_snoc_of_ne htf, List.count_erase_of_ne htc]
      rw [hheld, hgranted, Function.update_of_ne htf, count_update (fun n => n) hsame]
      simpa only [ite_self] using h

/-- The current task goes on in a call of the semaphores. -/
theorem DiskInv.run {k : Kernel} (h : DiskInv disks s) (hk : Reach (SyncInit m) Kernel.step Any s.kernel)
    (hs : s.kernel.advance (s.kernel.pc s.kernel.cur) = some k) : DiskInv disks { s with kernel := k } := by
  obtain ⟨R, W, hsync⟩ := reach_syncInv hk
  obtain ⟨hold, p, hpc', hgo⟩ := hsync.run_holds hs
  intro t
  show TaskOk disks (k.pc t) (k.granted t) (s.place t) (fun x => (k.held x).count t) (s.kept t)
  by_cases htc : t = s.kernel.cur
  · subst htc
    rw [hpc', Function.update_self]
    exact (h s.kernel.cur).run_cur hsync hold hgo
  · rw [hpc', Function.update_of_ne htc]
    exact (h t).run_other hsync hold htc

/-- The other steps of the semaphores. -/
theorem DiskInv.kernel {ke : Event} {k : Kernel} (h : DiskInv disks s)
    (hk : Reach (SyncInit m) Kernel.step Any s.kernel) (hok : s.Permits disks ke) (hs : s.kernel.step ke = some k) :
    DiskInv disks { s with kernel := k } := by
  have hstill : ke.Still → DiskInv disks { s with kernel := k } := by
    intro he t
    obtain ⟨hpc, hheld, hgranted⟩ := step_still he hs
    show TaskOk disks (k.pc t) (k.granted t) (s.place t) (fun x => (k.held x).count t) (s.kept t)
    rw [hpc, hheld, hgranted]
    exact h t
  cases ke with
  | run => exact h.run hk hs
  | timer | lock | idle | create | copy => exact hstill trivial
  | call c =>
    obtain ⟨hout, hfree⟩ := hok
    obtain ⟨-, hpc, henter⟩ := step_call hs
    obtain ⟨hheld, ⟨p, hpc', hp⟩, hgranted⟩ := enter_holds hpc henter
    intro t
    have ht := h t
    show TaskOk disks (k.pc t) (k.granted t) (s.place t) (fun x => (k.held x).count t) (s.kept t)
    rw [hheld, hpc']
    by_cases htc : t = s.kernel.cur
    · subst htc
      have hpl : s.place s.kernel.cur = .outside := isOutside_iff.1 hout
      rw [hpl] at ht ⊢
      rw [Function.update_self]
      refine ht.outside fun x hx => ?_
      rcases hp with rfl | ⟨st', rfl⟩
      · exact not_on_user
      · rintro ⟨st, hst⟩
        rcases hst with hst | hst
        · exact (hfree x hx).1 (Pc.call.inj hst).2
        · exact (hfree x hx).2 (Pc.call.inj hst).2
    · rw [Function.update_of_ne htc, hgranted t htc]
      exact ht

theorem kept_ret (s : DiskKernel) (call : Option DriveCall) (stat t x : ℕ) : (s.ret call stat).kept t x =
    s.kept t x + if s.cur = t ∧ (⟨s.cur, call, stat⟩ : DiskReturn).keeps x then 1 else 0 := by
  unfold DiskKernel.kept DiskKernel.ret
  dsimp only
  rw [List.countP_cons]
  simp only [decide_eq_true_eq]

theorem DiskInv.ret {call : Option DriveCall} (h : DiskInv disks s)
    (hcur : TaskOk disks (s.kernel.pc s.cur) (s.kernel.granted s.cur) .outside
      (fun x => (s.kernel.held x).count s.cur)
      fun x => s.kept s.cur x + if (⟨s.cur, call, stat⟩ : DiskReturn).keeps x then 1 else 0) :
    DiskInv disks (s.ret call stat) := by
  intro t
  have hkept : (s.ret call stat).kept t = fun x => s.kept t x +
      if s.cur = t ∧ (⟨s.cur, call, stat⟩ : DiskReturn).keeps x then 1 else 0 := funext fun x => kept_ret s call stat t x
  rw [hkept]
  show TaskOk disks (s.kernel.pc t) (s.kernel.granted t) (Function.update s.place s.cur .outside t)
    (fun x => (s.kernel.held x).count t) _
  by_cases htc : s.cur = t
  · subst htc
    rw [Function.update_self]
    simpa only [true_and] using hcur
  · rw [Function.update_of_ne (Ne.symm htc)]
    simpa only [htc, false_and, if_false, Nat.add_zero] using h t

theorem DiskInv.setPlace {k : Kernel} {devs : ℕ → Bytes.Mem} (h : DiskInv disks s) (hheld : k.held = s.kernel.held)
    (hother : ∀ t, t ≠ s.cur → k.pc t = s.kernel.pc t ∧ k.granted t = s.kernel.granted t)
    (hcur : TaskOk disks (k.pc s.cur) (k.granted s.cur) pl (fun x => (s.kernel.held x).count s.cur) (s.kept s.cur)) :
    DiskInv disks { s.setPlace pl with kernel := k, devs := devs } := by
  intro t
  show TaskOk disks (k.pc t) (k.granted t) (Function.update s.place s.cur pl t) (fun x => (k.held x).count t) (s.kept t)
  rw [hheld]
  by_cases htc : t = s.cur
  · subst htc
    rw [Function.update_self]
    exact hcur
  · obtain ⟨hpc, hgranted⟩ := hother t htc
    rw [Function.update_of_ne htc, hpc, hgranted]
    exact h t

/-- The task makes a call. -/
theorem DiskInv.called {c : Call} {k : Kernel} {devs : ℕ → Bytes.Mem} (h : DiskInv disks s)
    (hstep : s.kernel.step (.call c) = some k)
    (hcur : TaskOk disks (k.pc s.cur) (k.granted s.cur) pl (fun x => (s.kernel.held x).count s.cur) (s.kept s.cur)) :
    DiskInv disks { s.setPlace pl with kernel := k, devs := devs } := by
  obtain ⟨-, hpc, henter⟩ := step_call hstep
  obtain ⟨hheld, ⟨p, hpc', -⟩, hgranted⟩ := enter_holds hpc henter
  refine h.setPlace hheld (fun t ht => ⟨?_, hgranted t ht⟩) hcur
  rw [hpc']
  exact Function.update_of_ne ht _ _

/-- **Every step keeps the invariant.** -/
theorem DiskInv.step (h : DiskInv disks s) (hk : Reach (SyncInit m) Kernel.step Any s.kernel)
    (hnull : ∀ x ∈ disks, x ≠ NULL) (hs : s.step disks e = some s') : DiskInv disks s' := by
  have hcur := h s.cur
  have hkeeps : ∀ {c : DriveCall} {stat x}, c.Releases → ¬ (⟨s.cur, some c, stat⟩ : DiskReturn).keeps x := by
    intro c stat x hc hkeeps
    unfold DiskReturn.keeps at hkeeps
    exact (of_decide_eq_true hkeeps).2 hc
  cases DiskKernel.step_cases hs with
  | kernel ke k hok hstep heq => exact heq ▸ h.kernel hk hok hstep
  | null hpc hpl heq =>
    rw [heq]
    refine h.ret ?_
    rw [hpl] at hcur
    exact hcur
  | enter c k hpl hstep heq =>
    obtain ⟨-, hpc, henter⟩ := step_call hstep
    have hpc : s.kernel.pc s.cur = .user := hpc
    rw [hpc, hpl] at hcur
    rw [heq]
    refine h.called hstep (hcur.enter hnull ?_)
    rcases enter_acquire henter with ⟨h0, hsame⟩ | ⟨-, hbody, hfalse⟩
    · exact .inl ⟨h0, by rw [hsame, hpc]⟩
    · exact .inr ⟨hbody, hfalse⟩
  | early c stat hpc hpl hc heq =>
    rw [heq]
    refine h.ret ?_
    rw [hpc, hpl] at hcur
    rw [hpc]
    refine hcur.early hnull fun x => ?_
    unfold DiskReturn.keeps
    simp [hc]
  | work c hpc hpl hc heq =>
    rw [heq]
    rw [hpc, hpl] at hcur
    refine h.setPlace rfl (fun _ _ => ⟨rfl, rfl⟩) ?_
    rw [hpc]
    exact hcur.work hnull hc
  | release c k stat devs hpl hstep heq =>
    obtain ⟨-, hpc, henter⟩ := step_call hstep
    have hpc : s.kernel.pc s.cur = .user := hpc
    rw [hpc, hpl] at hcur
    rw [heq]
    refine h.called hstep ?_
    rcases enter_release henter with ⟨h0, hsame⟩ | ⟨-, hbody, hsame⟩
    · rw [hsame, hpc]
      exact hcur.release hnull (.inl ⟨h0, rfl⟩)
    · rw [hsame]
      exact hcur.release hnull (.inr hbody)
  | done c stat hpc hpl heq =>
    rw [heq]
    refine h.ret ?_
    rw [hpc, hpl] at hcur
    rw [hpc]
    have hlost : (fun x => s.kept s.cur x + if (⟨s.cur, some c, stat⟩ : DiskReturn).keeps x then 1 else 0) =
        s.kept s.cur := by
      funext x
      rw [if_neg (hkeeps hcur.place.1), Nat.add_zero]
    rw [hlost]
    exact hcur.done

theorem reach_disks (hs : Reach (DiskInit m disks) (DiskKernel.step disks) Any s) : ∀ x ∈ disks, x ≠ NULL ∧ m x = 1 :=
  hs.inv (I := fun _ => ∀ x ∈ disks, x ≠ NULL ∧ m x = 1) (fun _ h => h.2.1) fun _ _ _ hI _ _ => hI

/-- **The invariant holds in every run.** -/
theorem reach_diskInv (hs : Reach (DiskInit m disks) (DiskKernel.step disks) Any s) : DiskInv disks s := by
  induction hs with
  | init h =>
    obtain ⟨⟨-, c, -, -, hk⟩, -, hpl, hret⟩ := h
    intro t
    unfold DiskKernel.kept
    rw [hk, hpl, hret]
    exact ⟨fun x _ => not_on_user, nofun, fun x _ => rfl⟩
  | step hs _ hst ih => exact ih.step (DiskKernel.reach_kernel hs) (fun x hx => (reach_disks hs x hx).1) hst

/-! ## The mutex -/

/-- The task `t` is between the two calls for the mutex `x`. -/
def DiskKernel.Inside (s : DiskKernel) (x t : ℕ) : Prop :=
  InsideAt (s.kernel.pc t) (s.kernel.granted t) x (s.place t)

instance : Decidable (s.Inside x t) := inferInstanceAs (Decidable (InsideAt _ _ _ _))

/-- **The mutex is as if every call that has returned had acquired it and released it**: it is taken just while a task is
inside, and there are waiting tasks only then. -/
structure DiskFree (s : DiskKernel) (x : ℕ) : Prop where
  count : (s.kernel.sem x).currentCount ≠ 0 ↔ ∃ t, s.Inside x t
  list : (s.kernel.sem x).firstWaitingTask ≠ NULL → ∃ t, s.Inside x t

theorem keeps_iff {r : DiskReturn} :
    r.keeps x = true ↔ ∃ c, r.call = some c ∧ c.d.mutex = x ∧ ¬ c.Releases := by
  unfold DiskReturn.keeps
  rw [Option.any_eq_true]
  simp only [decide_eq_true_eq]

theorem kept_pos : 0 < s.kept t x ↔ ∃ r ∈ s.returned, r.task = t ∧ r.keeps x = true := by
  unfold DiskKernel.kept
  rw [List.countP_pos_iff]
  simp only [decide_eq_true_eq]

theorem DiskInv.held_count (h : DiskInv disks s) (hx : x ∈ disks) (t : ℕ) :
    (s.kernel.held x).count t = s.kept t x + if s.Inside x t then 1 else 0 := (h t).count x hx

theorem DiskInv.inside_held (h : DiskInv disks s) (hx : x ∈ disks) (ht : s.Inside x t) : t ∈ s.kernel.held x := by
  have hcount := h.held_count hx t
  rw [if_pos ht] at hcount
  exact List.count_pos_iff.1 (by omega)

/-- A task that is outside holds the mutex for the calls that kept it. -/
theorem DiskInv.outside_held (h : DiskInv disks s) (hx : x ∈ disks) (ht : s.place t = .outside) :
    t ∈ s.kernel.held x ↔ ∃ r ∈ s.returned, r.task = t ∧ r.keeps x = true := by
  have hout : ¬ s.Inside x t := by
    unfold DiskKernel.Inside
    rw [ht]
    exact id
  have hcount := h.held_count hx t
  rw [if_neg hout, Nat.add_zero] at hcount
  rw [← kept_pos, ← hcount, List.count_pos_iff]

/-- **When the mutex of a disk is released.** In every run, with other tasks in between: the mutex is taken only while a
task is in a call, just if all calls that have returned had a range on the disk that was not empty; and a task is left
with the mutex just if one of its own had not. -/
theorem disk_mutex_iff (hs : Reach (DiskInit m disks) (DiskKernel.step disks) Any s) (hx : x ∈ disks) :
    (DiskFree s x ↔ ∀ r ∈ s.returned, ∀ c, r.call = some c → c.d.mutex = x → c.Releases) ∧
    ∀ t, s.place t = .outside → (t ∉ s.kernel.held x ↔
      ∀ r ∈ s.returned, r.task = t → ∀ c, r.call = some c → c.d.mutex = x → c.Releases) := by
  have hk := DiskKernel.reach_kernel hs
  have hinv := reach_diskInv hs
  obtain ⟨R, W, hsync⟩ := reach_syncInv hk
  have hlen := hsync.sems.count x
  have hle := hsync.sems.le x
  rw [reach_maxCount hk x] at hle
  have hmax : m x = 1 := (reach_disks hs x hx).2
  refine ⟨⟨fun hfree r hr c hc hcx => ?_, fun hall => ?_⟩, fun t ht => ?_⟩
  · -- a mutex that was kept is never free again
    by_contra hrel
    have hkept : 0 < s.kept r.task x := kept_pos.2 ⟨r, hr, rfl, keeps_iff.2 ⟨c, hc, hcx, hrel⟩⟩
    have hcount := hinv.held_count hx r.task
    have hmem : r.task ∈ s.kernel.held x := List.count_pos_iff.1 (by omega)
    have hpos : (s.kernel.sem x).currentCount ≠ 0 := by
      rw [← hlen]
      exact (List.length_pos_of_mem hmem).ne'
    obtain ⟨t, ht⟩ := hfree.count.1 hpos
    obtain ⟨a, ha⟩ := List.length_eq_one_iff.1 (show (s.kernel.held x).length = 1 by omega)
    have hmem' := hinv.inside_held hx ht
    rw [ha] at hmem hmem'
    obtain rfl : t = r.task := (List.mem_singleton.1 hmem').trans (List.mem_singleton.1 hmem).symm
    rw [if_pos ht] at hcount
    have hcount' : (s.kernel.held x).count r.task ≤ 1 := by
      rw [← show (s.kernel.held x).length = 1 by rw [ha]; rfl]
      exact List.count_le_length
    omega
  · have htaken : (s.kernel.sem x).currentCount ≠ 0 → ∃ t, s.Inside x t := by
      intro hpos
      obtain ⟨t, ht⟩ := List.exists_mem_of_length_pos (l := s.kernel.held x) (by omega)
      have hcount := hinv.held_count hx t
      have hmem : 0 < (s.kernel.held x).count t := List.count_pos_iff.2 ht
      refine ⟨t, ?_⟩
      by_contra hout
      rw [if_neg hout] at hcount
      obtain ⟨r, hr, -, hkeeps⟩ := kept_pos.1 (show 0 < s.kept t x by omega)
      obtain ⟨c, hc, hcx, hrel⟩ := keeps_iff.1 hkeeps
      exact hrel (hall r hr c hc hcx)
    refine ⟨⟨htaken, fun ⟨t, ht⟩ => ?_⟩, fun hfirst => htaken ?_⟩
    · rw [← hlen]
      exact (List.length_pos_of_mem (hinv.inside_held hx ht)).ne'
    · -- tasks wait only at the limit
      have hfull := reach_full hk x hfirst
      rw [reach_maxCount hk x, hmax] at hfull
      omega
  · rw [hinv.outside_held hx ht]
    constructor
    · intro hnone r hr hrt c hc hcx
      by_contra hrel
      exact hnone ⟨r, hr, hrt, keeps_iff.2 ⟨c, hc, hcx, hrel⟩⟩
    · rintro hall ⟨r, hr, hrt, hkeeps⟩
      obtain ⟨c, hc, hcx, hrel⟩ := keeps_iff.1 hkeeps
      exact hrel (hall r hr hrt c hc hcx)

/-! ## Runs -/

/-- The kernel after `init_scheduler`, with a disk of 100 sectors whose mutex is at 7. -/
def bootedDisk : DiskKernel := ⟨bootedKernel, fun _ => .outside, fun _ _ => 0, []⟩

theorem diskInit_booted : DiskInit (fun _ => 1) [7] bootedDisk :=
  ⟨syncInit_booted, by decide, fun _ => rfl, rfl⟩

def sampleDrive : LockedDrive := ⟨⟨⟨DISK_TYPE_IDE, 100, ⟨0, 100⟩⟩, 0, 100⟩, 0x100, 7⟩

/-- The current task reads sectors, up to the test of the range, and is not interrupted. -/
def startRead (lba amount : ℕ) : List DiskEvent :=
  [.enter .driveReadSectors (some sampleDrive) (some fun _ => 0) lba amount] ++ List.replicate 4 (.kernel .run) ++
    [.goOn .quiet]

/-- What can be seen of the boot task and the mutex. -/
structure DiskView where
  outside : Bool
  state : TaskState
  held : List ℕ
  count : ℕ
  first : ℕ
  returned : List (ℕ × Bool)
  deriving DecidableEq

def DiskKernel.view (s : DiskKernel) : DiskView where
  outside := (s.place 1).isOutside
  state := s.kernel.sched.state 1
  held := s.kernel.held 7
  count := (s.kernel.sem 7).currentCount
  first := (s.kernel.sem 7).firstWaitingTask
  returned := s.returned.map fun r => (r.stat, r.keeps 7)

/-- Two sectors are read. -/
theorem disk_mutex_read : ∃ s, Reach (DiskInit (fun _ => 1) [7]) (DiskKernel.step [7]) Any s ∧
    s.returned.length = 1 ∧ DiskFree s 7 ∧ 1 ∉ s.kernel.held 7 := by
  have hrun : (run (DiskKernel.step [7]) (fun _ _ => true) bootedDisk
      (startRead 3 2 ++ [.goOn .quiet] ++ List.replicate 4 (.kernel .run) ++ [.goOn .quiet])).map DiskKernel.view =
        some ⟨true, .running, [], 0, 0, [(0, false)]⟩ := by decide +kernel
  obtain ⟨s, hs, hview⟩ := Option.map_eq_some_iff.1 hrun
  have hout : (s.place 1).isOutside = true := congrArg DiskView.outside hview
  have hret : s.returned.map (fun r => (r.stat, r.keeps 7)) = [(0, false)] := congrArg DiskView.returned hview
  have hreach := (Reach.init diskInit_booted).run (fun _ _ _ => trivial) _ hs
  have hall : ∀ r ∈ s.returned, ∀ c, r.call = some c → c.d.mutex = 7 → c.Releases := by
    intro r hr c hc hcx
    by_contra hrel
    have hmem := List.mem_map_of_mem (f := fun r : DiskReturn => (r.stat, r.keeps 7)) hr
    rw [hret, keeps_iff.2 ⟨c, hc, hcx, hrel⟩] at hmem
    cases (Prod.mk.inj (List.mem_singleton.1 hmem)).2
  obtain ⟨hfree, htask⟩ := disk_mutex_iff hreach (x := 7) (by decide)
  refine ⟨s, hreach, ?_, hfree.2 hall, (htask 1 (isOutside_iff.1 hout)).2 fun r hr _ => hall r hr⟩
  rw [← List.length_map (fun r : DiskReturn => (r.stat, r.keeps 7)), hret]
  rfl

/-- **No sectors are read**: the call succeeds and leaves the mutex taken. In its next call the task waits for itself. -/
theorem disk_mutex_kept : (∃ s, Reach (DiskInit (fun _ => 1) [7]) (DiskKernel.step [7]) Any s ∧
      s.returned.map (·.stat) = [GENERIC_SUCCESS] ∧ s.place 1 = .outside ∧ (s.kernel.sem 7).currentCount = 1 ∧
      ¬ DiskFree s 7) ∧
    ∃ s, Reach (DiskInit (fun _ => 1) [7]) (DiskKernel.step [7]) Any s ∧ s.returned.map (·.stat) = [GENERIC_SUCCESS] ∧
      s.kernel.sched.state 1 = .block ∧ (s.kernel.sem 7).firstWaitingTask = 1 := by
  have hrun : (run (DiskKernel.step [7]) (fun _ _ => true) bootedDisk (startRead 0 0)).map DiskKernel.view =
      some ⟨true, .running, [1], 1, 0, [(0, true)]⟩ := by decide +kernel
  have hrun' : (run (DiskKernel.step [7]) (fun _ _ => true) bootedDisk (startRead 0 0 ++
      [.enter .driveReadSectors (some sampleDrive) (some fun _ => 0) 0 1] ++ List.replicate 6 (.kernel .run))).map
        DiskKernel.view = some ⟨false, .block, [1], 1, 1, [(0, true)]⟩ := by decide +kernel
  have hstat : ∀ {s : DiskKernel}, s.returned.map (fun r => (r.stat, r.keeps 7)) = [(0, true)] →
      s.returned.map (·.stat) = [GENERIC_SUCCESS] := by
    intro s h
    have hfst := congrArg (List.map Prod.fst) h
    rwa [List.map_map] at hfst
  constructor
  · obtain ⟨s, hs, hview⟩ := Option.map_eq_some_iff.1 hrun
    have hout : (s.place 1).isOutside = true := congrArg DiskView.outside hview
    have hheld : s.kernel.held 7 = [1] := congrArg DiskView.held hview
    have hcount : (s.kernel.sem 7).currentCount = 1 := congrArg DiskView.count hview
    have hret : s.returned.map (fun r => (r.stat, r.keeps 7)) = [(0, true)] := congrArg DiskView.returned hview
    have hreach := (Reach.init diskInit_booted).run (fun _ _ _ => trivial) _ hs
    have hpl : s.place 1 = .outside := isOutside_iff.1 hout
    refine ⟨s, hreach, hstat hret, hpl, hcount, fun hfree => ?_⟩
    -- the only holder is the boot task, which is outside
    obtain ⟨t, ht⟩ := hfree.count.1 (by rw [hcount]; decide)
    have hmem := (reach_diskInv hreach).inside_held (by decide) ht
    rw [hheld] at hmem
    obtain rfl := List.mem_singleton.1 hmem
    unfold DiskKernel.Inside at ht
    rw [hpl] at ht
    exact ht
  · obtain ⟨s, hs, hview⟩ := Option.map_eq_some_iff.1 hrun'
    have hstate : s.kernel.sched.state 1 = .block := congrArg DiskView.state hview
    have hfirst : (s.kernel.sem 7).firstWaitingTask = 1 := congrArg DiskView.first hview
    have hret : s.returned.map (fun r => (r.stat, r.keeps 7)) = [(0, true)] := congrArg DiskView.returned hview
    exact ⟨s, (Reach.init diskInit_booted).run (fun _ _ _ => trivial) _ hs, hstat hret, hstate, hfirst⟩

end Nettapus
