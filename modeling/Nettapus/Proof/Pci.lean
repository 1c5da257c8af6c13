import Nettapus.Code.Pci
import Nettapus.Lib.Walks
import Nettapus.Lib.Words
import Mathlib.Data.Fintype.Basic

/-!
# The scan of the PCI bus

`pciNext` are the functions that `pci_scan_bus` checks on a bus, with the bus behind those that are bridges. The scan is a walk
over them (`scanAll_eq`) that does not remember the buses where it was.

`pci_iff`: it ends and adds every function at most once exactly when no bus that it comes to leads back to itself, and there
is one way only to each bus with a function that is present. A bridge that was not set up, with the secondary bus 0, is
enough for a scan without an end.
-/

namespace Nettapus

open Walks

variable {cfg : PciConfig} {fuel : ℕ} {bus slot func : UInt8}

structure PciFunction where
  bus : UInt8
  slot : UInt8
  func : UInt8
  deriving DecidableEq

namespace PciFunction

def address (f : PciFunction) : UInt32 := pciGetAddress f.bus f.slot f.func

/-- There is a device. -/
def Present (cfg : PciConfig) (f : PciFunction) : Prop := pciGetVendorId cfg f.address ≠ 0xFFFF

instance (f : PciFunction) : Decidable (f.Present cfg) := inferInstanceAs (Decidable (_ ≠ _))

/-- The bus behind a bridge. -/
def behind (cfg : PciConfig) (f : PciFunction) : Option UInt8 :=
  if pciGetClassCode cfg f.address = 0x6 ∧ pciGetSubclassCode cfg f.address = 0x4 then
    some (pciGetSecondaryBus cfg f.address)
  else none

end PciFunction

/-- The functions that are checked on a bus. -/
def pciChecked (cfg : PciConfig) (bus : UInt8) : List PciFunction :=
  (counter 32).flatMap fun slot =>
    (if pciGetHeaderType cfg (pciGetAddress bus slot 0) &&& 0x80 ≠ 0 then counter 8 else [0]).map fun func => ⟨bus, slot, func⟩

def pciNext (cfg : PciConfig) (bus : UInt8) : List (PciFunction × Option UInt8) :=
  (pciChecked cfg bus).map fun f => (f, f.behind cfg)

/-- The buses that the scan begins with. -/
def pciRoots (cfg : PciConfig) : List UInt8 :=
  if pciGetHeaderType cfg (pciGetAddress 0 0 0) &&& 0x80 ≠ 0 then
    (counter 8).filter fun func => PciFunction.Present cfg ⟨0, 0, func⟩
  else [0]

/-! ## Addresses -/

theorem address_toNat (hs : slot < 32) (hf : func < 8) :
    (pciGetAddress bus slot func).toNat = func.toNat * 2 ^ 8 + slot.toNat * 2 ^ 11 + bus.toNat * 2 ^ 16 + 2 ^ 31 := by
  have hb := bus.toNat_lt
  have hs' : slot.toNat < 32 := UInt8.lt_iff_toNat_lt.1 hs
  have hf' : func.toNat < 8 := UInt8.lt_iff_toNat_lt.1 hf
  have hslot : func.toNat * 2 ^ 8 ||| slot.toNat <<< 11 = func.toNat * 2 ^ 8 + slot.toNat * 2 ^ 11 :=
    Words.or_shiftLeft (by omega)
  have hbus : (func.toNat * 2 ^ 8 + slot.toNat * 2 ^ 11) ||| bus.toNat <<< 16 =
      func.toNat * 2 ^ 8 + slot.toNat * 2 ^ 11 + bus.toNat * 2 ^ 16 := Words.or_shiftLeft (by omega)
  have htop : (func.toNat * 2 ^ 8 + slot.toNat * 2 ^ 11 + bus.toNat * 2 ^ 16) ||| 1 <<< 31 =
      func.toNat * 2 ^ 8 + slot.toNat * 2 ^ 11 + bus.toNat * 2 ^ 16 + 1 * 2 ^ 31 := Words.or_shiftLeft (by omega)
  have hcomm : (pciGetAddress bus slot func).toNat =
      func.toNat * 2 ^ 8 ||| slot.toNat <<< 11 ||| bus.toNat <<< 16 ||| 1 <<< 31 := by
    have hword : ∀ x k : ℕ, x * 2 ^ k < 2 ^ 32 → x <<< k % 2 ^ 32 = x <<< k := fun x k h =>
      Nat.mod_eq_of_lt (by rwa [Nat.shiftLeft_eq])
    change bus.toNat <<< 16 % 2 ^ 32 ||| slot.toNat <<< 11 % 2 ^ 32 ||| func.toNat <<< 8 % 2 ^ 32 ||| 1 <<< 31 = _
    rw [hword _ 16 (by omega), hword _ 11 (by omega), hword _ 8 (by omega), ← Nat.shiftLeft_eq func.toNat 8,
      Nat.or_comm (bus.toNat <<< 16), Nat.or_assoc (slot.toNat <<< 11), Nat.or_comm (bus.toNat <<< 16), ← Nat.or_assoc,
      Nat.or_comm (slot.toNat <<< 11)]
  rw [hcomm, hslot, hbus, htop, Nat.one_mul]

theorem address_inj {f f' : PciFunction} (hs : f.slot < 32) (hf : f.func < 8) (hs' : f'.slot < 32) (hf' : f'.func < 8)
    (h : f.address = f'.address) : f = f' := by
  have heq := congrArg UInt32.toNat h
  rw [PciFunction.address, PciFunction.address, address_toNat hs hf, address_toNat hs' hf'] at heq
  have hslot : f.slot.toNat < 32 := UInt8.lt_iff_toNat_lt.1 hs
  have hslot' : f'.slot.toNat < 32 := UInt8.lt_iff_toNat_lt.1 hs'
  have hfunc : f.func.toNat < 8 := UInt8.lt_iff_toNat_lt.1 hf
  have hfunc' : f'.func.toNat < 8 := UInt8.lt_iff_toNat_lt.1 hf'
  rcases f with ⟨bus, slot, func⟩
  rcases f' with ⟨bus', slot', func'⟩
  simp only [PciFunction.mk.injEq, ← UInt8.toNat_inj]
  dsimp only at heq hslot hslot' hfunc hfunc'
  omega

/-! ## The scan as a walk -/

/-- What is put into the list for a function. -/
def pciDevice (cfg : PciConfig) (f : PciFunction) : PciDevice where
  address := f.address
  headerType := pciGetHeaderType cfg f.address
  deviceId := (pciGetDeviceId cfg f.address).toUInt32
  vendorId := (pciGetVendorId cfg f.address).toUInt32
  classCode := pciGetClassCode cfg f.address
  subclassCode := pciGetSubclassCode cfg f.address
  progIf := pciGetProgIf cfg f.address
  revisionId := (pciReadField cfg f.address 8 &&& 0xFF).toUInt8
  bars := pciBars cfg f.address (pciGetHeaderType cfg f.address)

/-- The devices of the functions that are present. -/
def pciFound (cfg : PciConfig) (fs : List PciFunction) : List PciDevice :=
  (fs.filter fun f => f.Present cfg).map (pciDevice cfg)

theorem found_append (fs fs' : List PciFunction) : pciFound cfg (fs ++ fs') = pciFound cfg fs ++ pciFound cfg fs' := by
  simp [pciFound]

theorem regDevice_eq (f : PciFunction) (devs : List PciDevice) :
    pciRegDevice cfg f.bus f.slot f.func devs = devs ++ pciFound cfg [f] := by
  by_cases hf : f.Present cfg
  · have hvendor : pciGetVendorId cfg (pciGetAddress f.bus f.slot f.func) ≠ 0xFFFF := hf
    simp only [pciRegDevice, if_neg hvendor]
    simp [pciFound, hf, pciDevice, PciFunction.address]
  · have hvendor : pciGetVendorId cfg (pciGetAddress f.bus f.slot f.func) = 0xFFFF := not_not.1 hf
    simp only [pciRegDevice, if_pos hvendor]
    simp [pciFound, hf]

section

variable {scan : UInt8 → List PciDevice → Option (List PciDevice)}
  {walk : UInt8 → Option (List (List PciFunction × PciFunction))}

/-- **A function**: it is added, and what is behind it. -/
theorem checkFunction_eq (hscan : ∀ bus devs, scan bus devs = (walk bus).map fun l => devs ++ pciFound cfg (l.map Prod.snd))
    (f : PciFunction) (devs : List PciDevice) : pciCheckFunction cfg scan f.bus f.slot f.func devs =
      ((f.behind cfg).elim (some []) walk).map fun l => devs ++ pciFound cfg (f :: l.map Prod.snd) := by
  have hcons : ∀ l : List (List PciFunction × PciFunction), devs ++ pciFound cfg (f :: l.map Prod.snd) =
      devs ++ pciFound cfg [f] ++ pciFound cfg (l.map Prod.snd) := fun l => by
    rw [List.append_assoc, ← found_append, List.singleton_append]
  by_cases hbridge : pciGetClassCode cfg f.address = 0x6 ∧ pciGetSubclassCode cfg f.address = 0x4
  · simp only [PciFunction.behind, if_pos hbridge, Option.elim_some, hcons]
    rw [← hscan, ← regDevice_eq]
    exact if_pos hbridge
  · simp only [PciFunction.behind, if_neg hbridge, Option.elim_none, Option.map_some, List.map_nil]
    rw [← regDevice_eq]
    exact if_neg hbridge

theorem checkFunctions_eq (hscan : ∀ bus devs, scan bus devs = (walk bus).map fun l => devs ++ pciFound cfg (l.map Prod.snd))
    (fs : List PciFunction) (devs : List PciDevice) :
    fs.foldlM (fun devs f => pciCheckFunction cfg scan f.bus f.slot f.func devs) devs =
      (traceItems walk (fs.map fun f => (f, f.behind cfg))).map fun l => devs ++ pciFound cfg (l.map Prod.snd) := by
  induction fs generalizing devs with
  | nil => simp [traceItems, pciFound]
  | cons f fs ih =>
    rw [List.foldlM_cons, checkFunction_eq hscan, List.map_cons, traceItems]
    cases (f.behind cfg).elim (some []) walk with
    | none => rfl
    | some below =>
      simp only [Option.map_some, Option.bind_eq_bind, Option.bind_some, ih]
      cases traceItems walk (fs.map fun f => (f, f.behind cfg)) with
      | none => rfl
      | some rest => simp [← found_append, List.append_assoc, Function.comp_def]

end

theorem foldlM_flatMap {α β γ : Type} (g : α → List β) (f : γ → β → Option γ) (l : List α) (s : γ) :
    (l.flatMap g).foldlM f s = l.foldlM (fun s a => (g a).foldlM f s) s := by
  induction l generalizing s with
  | nil => rfl
  | cons a l ih => simp [ih]

/-- **A bus** is scanned as the walk says. -/
theorem scanBus_eq (fuel : ℕ) (bus : UInt8) (devs : List PciDevice) : pciScanBus cfg fuel bus devs =
    (trace (pciNext cfg) fuel bus).map fun l => devs ++ pciFound cfg (l.map Prod.snd) := by
  induction fuel generalizing bus devs with
  | zero => rfl
  | succ fuel ih =>
    rw [trace, pciNext, ← checkFunctions_eq ih, pciChecked, foldlM_flatMap, pciScanBus]
    congr 1
    funext devs slot
    rw [List.foldlM_map]
    split_ifs with hmulti
    · rfl
    · simp

theorem scanRoots_eq (fuel : ℕ) (roots : List UInt8) (devs : List PciDevice) :
    roots.foldlM (fun devs bus => pciScanBus cfg fuel bus devs) devs =
      (traceAll (pciNext cfg) fuel roots).map fun l => devs ++ pciFound cfg (l.map fun x => x.2.2) := by
  induction roots generalizing devs with
  | nil => simp [traceAll, pciFound]
  | cons bus roots ih =>
    rw [List.foldlM_cons, scanBus_eq, traceAll]
    cases trace (pciNext cfg) fuel bus with
    | none => rfl
    | some l =>
      simp only [Option.map_some, Option.bind_eq_bind, Option.bind_some, ih]
      cases traceAll (pciNext cfg) fuel roots with
      | none => rfl
      | some rest => simp [← found_append, List.append_assoc, Function.comp_def]

/-- **All buses**: the walks from the buses that the scan begins with. -/
theorem scanAll_eq (cfg : PciConfig) (fuel : ℕ) : ∃ ret, pciScanAllBuses cfg fuel =
    (traceAll (pciNext cfg) fuel (pciRoots cfg)).map fun l => (ret, pciFound cfg (l.map fun x => x.2.2)) := by
  by_cases hmulti : pciGetHeaderType cfg (pciGetAddress 0 0 0) &&& 0x80 ≠ 0
  · have hroots : (counter 8).foldlM (fun devs func =>
        if pciGetVendorId cfg (pciGetAddress 0 0 func) = 0xFFFF then some devs else pciScanBus cfg fuel func devs) [] =
        (pciRoots cfg).foldlM (fun devs bus => pciScanBus cfg fuel bus devs) [] := by
      rw [pciRoots, if_pos hmulti, List.foldlM_filter]
      congr 1
      funext devs func
      by_cases hvendor : pciGetVendorId cfg (pciGetAddress 0 0 func) = 0xFFFF <;>
        simp [PciFunction.Present, PciFunction.address, hvendor]
    refine ⟨1, ?_⟩
    rw [pciScanAllBuses, if_pos hmulti, hroots, scanRoots_eq]
    simp [Function.comp_def]
  · refine ⟨0, ?_⟩
    have hbus : pciScanBus cfg fuel 0 [] = [0].foldlM (fun devs bus => pciScanBus cfg fuel bus devs) [] := by simp
    rw [pciScanAllBuses, if_neg hmulti, hbus, scanRoots_eq, pciRoots, if_neg hmulti]
    simp [Function.comp_def]

/-! ## When it ends, and what it adds -/

theorem mem_checked {f : PciFunction} (h : f ∈ pciChecked cfg bus) : f.bus = bus ∧ f.slot < 32 ∧ f.func < 8 := by
  have hslots : ∀ slot ∈ counter 32, slot < 32 := by decide +kernel
  have hfuncs : ∀ func ∈ counter 8, func < 8 := by decide +kernel
  obtain ⟨slot, hslot, hf⟩ := List.mem_flatMap.1 h
  obtain ⟨func, hfunc, rfl⟩ := List.mem_map.1 hf
  refine ⟨rfl, hslots slot hslot, ?_⟩
  split_ifs at hfunc
  · exact hfuncs func hfunc
  · obtain rfl : func = 0 := by simpa using hfunc
    show (0 : UInt8) < 8
    decide

/-- Every function of a bus is checked once. -/
theorem next_nodup (cfg : PciConfig) (bus : UInt8) : ((pciNext cfg bus).map Prod.fst).Nodup := by
  have hlabels : (pciNext cfg bus).map Prod.fst = pciChecked cfg bus := by simp [pciNext, Function.comp_def]
  have hslots : (counter 32).Nodup := by decide +kernel
  have hfuncs : (counter 8).Nodup := by decide +kernel
  rw [hlabels, pciChecked, List.nodup_flatMap]
  constructor
  · intro slot _
    apply List.Nodup.map
    · intro func func' heq
      exact (PciFunction.mk.inj heq).2.2
    · split_ifs
      · exact hfuncs
      · exact List.nodup_singleton 0
  · refine hslots.imp fun hne f hf hf' => ?_
    obtain ⟨_, -, rfl⟩ := List.mem_map.1 hf
    obtain ⟨_, -, heq⟩ := List.mem_map.1 hf'
    exact hne (PciFunction.mk.inj heq).2.1.symm

theorem roots_nodup (cfg : PciConfig) : (pciRoots cfg).Nodup := by
  have hfuncs : (counter 8).Nodup := by decide +kernel
  unfold pciRoots
  split_ifs
  · exact hfuncs.filter _
  · exact List.nodup_singleton 0

/-- The devices are there once if the walk came once to each function that is present. -/
theorem found_nodup_iff {t : List (UInt8 × List PciFunction × PciFunction)} (ht : t.Nodup) :
    ((pciFound cfg (t.map fun x => x.2.2)).map PciDevice.address).Nodup ↔
      ∀ x ∈ t, ∀ y ∈ t, x.2.2.Present cfg → y.2.2.Present cfg → x.2.2.address = y.2.2.address → x = y := by
  have hmap : (pciFound cfg (t.map fun x => x.2.2)).map PciDevice.address =
      (t.filter fun x => x.2.2.Present cfg).map fun x => x.2.2.address := by
    simp [pciFound, List.filter_map, pciDevice, Function.comp_def]
  rw [hmap, List.nodup_map_iff_inj_on (ht.filter _)]
  simp only [List.mem_filter, decide_eq_true_eq, and_imp]
  exact ⟨fun h x hx y hy hpx hpy => h x hx hpx y hy hpy, fun h x hx hpx y hy hpy => h x hx y hy hpx hpy⟩

/-- **The scan**: it ends, and adds every function at most once, when the bridges make a tree of the buses. -/
theorem pci_iff (cfg : PciConfig) :
    (∃ fuel ret devs, pciScanAllBuses cfg fuel = some (ret, devs) ∧ (devs.map PciDevice.address).Nodup) ↔
    (∀ root ∈ pciRoots cfg, ∀ bus r r', Route (pciNext cfg) root r bus → Route (pciNext cfg) bus r' bus → r' = []) ∧
    ∀ root ∈ pciRoots cfg, ∀ root' ∈ pciRoots cfg, ∀ bus r r',
      Route (pciNext cfg) root r bus → Route (pciNext cfg) root' r' bus →
      (∃ f ∈ pciChecked cfg bus, f.Present cfg) → root = root' ∧ r = r' := by
  have hends : (∃ fuel t, traceAll (pciNext cfg) fuel (pciRoots cfg) = some t) ↔ ∀ root ∈ pciRoots cfg, ∀ bus r r',
      Route (pciNext cfg) root r bus → Route (pciNext cfg) bus r' bus → r' = [] := by
    have hfinite : Finite UInt8 := Finite.of_injective UInt8.toFin fun x y h => UInt8.toFin_inj.1 h
    rw [traceAll_isSome_iff]
    exact forall₂_congr fun root _ => acc_iff
  have honce : ∀ fuel t, traceAll (pciNext cfg) fuel (pciRoots cfg) = some t →
      (((pciFound cfg (t.map fun x => x.2.2)).map PciDevice.address).Nodup ↔ ∀ root ∈ pciRoots cfg, ∀ root' ∈ pciRoots cfg,
        ∀ bus r r', Route (pciNext cfg) root r bus → Route (pciNext cfg) root' r' bus →
        (∃ f ∈ pciChecked cfg bus, f.Present cfg) → root = root' ∧ r = r') := by
    intro fuel t ht
    rw [found_nodup_iff (traceAll_nodup (next_nodup cfg) (roots_nodup cfg) ht)]
    have hmem : ∀ {root r f}, (root, r, f) ∈ t ↔
        root ∈ pciRoots cfg ∧ ∃ bus, Route (pciNext cfg) root r bus ∧ f ∈ pciChecked cfg bus := by
      intro root r f
      simp [mem_traceAll ht, pciNext]
    constructor
    · rintro h root hroot root' hroot' bus r r' hr hr' ⟨f, hf, hpresent⟩
      have heq := h (root, r, f) (hmem.2 ⟨hroot, bus, hr, hf⟩) (root', r', f) (hmem.2 ⟨hroot', bus, hr', hf⟩)
        hpresent hpresent rfl
      simpa using heq
    · rintro h ⟨root, r, f⟩ hx ⟨root', r', f'⟩ hy hpresent - haddress
      obtain ⟨hroot, bus, hr, hf⟩ := hmem.1 hx
      obtain ⟨hroot', bus', hr', hf'⟩ := hmem.1 hy
      obtain ⟨rfl, hslot, hfunc⟩ := mem_checked hf
      obtain ⟨rfl, hslot', hfunc'⟩ := mem_checked hf'
      obtain rfl := address_inj hslot hfunc hslot' hfunc' haddress
      obtain ⟨rfl, rfl⟩ := h root hroot root' hroot' _ r r' hr hr' ⟨f, hf, hpresent⟩
      rfl
  constructor
  · rintro ⟨fuel, ret, devs, hscan, hnodup⟩
    obtain ⟨ret', hall⟩ := scanAll_eq cfg fuel
    rw [hall, Option.map_eq_some_iff] at hscan
    obtain ⟨t, ht, heq⟩ := hscan
    obtain ⟨-, rfl⟩ := Prod.mk.inj heq
    exact ⟨hends.1 ⟨fuel, t, ht⟩, (honce fuel t ht).1 hnodup⟩
  · rintro ⟨hend, hroutes⟩
    obtain ⟨fuel, t, ht⟩ := hends.2 hend
    obtain ⟨ret, hall⟩ := scanAll_eq cfg fuel
    refine ⟨fuel, ret, _, ?_, (honce fuel t ht).2 hroutes⟩
    rw [hall, ht, Option.map_some]

/-- The configuration space of the functions that are given, by address and word. -/
def pciSpace (words : List (UInt32 × UInt32)) : PciConfig := fun address => (words.lookup address).getD 0xFFFFFFFF

/-- A bridge on bus 0 that was not set up: its secondary bus is 0. -/
def freshBridge : PciConfig :=
  pciSpace [(0x80000000, 0x12348086), (0x80000008, 0x06040000), (0x8000000C, 0x00010000), (0x80000018, 0)]

/-- Two bridges on bus 0 to the same bus 1, with a disk. -/
def twoBridges : PciConfig :=
  pciSpace [(0x80000000, 0x12348086), (0x80000008, 0x06040000), (0x8000000C, 0x00010000), (0x80000018, 0x00010100),
    (0x80000800, 0x12348086), (0x80000808, 0x06040000), (0x8000080C, 0x00010000), (0x80000818, 0x00010100),
    (0x80010000, 0x70108086), (0x80010008, 0x01010000), (0x8001000C, 0)]

/-- The first scan does not end with any fuel, and the second one adds the disk twice. -/
theorem pci_loop : (¬ ∃ fuel ret devs, pciScanAllBuses freshBridge fuel = some (ret, devs)) ∧
    ∃ devs, pciScanAllBuses twoBridges 2 = some (0, devs) ∧ ¬ (devs.map PciDevice.address).Nodup := by
  constructor
  · rintro ⟨fuel, ret, devs, hscan⟩
    obtain ⟨ret', hall⟩ := scanAll_eq freshBridge fuel
    rw [hall, Option.map_eq_some_iff] at hscan
    obtain ⟨t, ht, -⟩ := hscan
    have hroot : 0 ∈ pciRoots freshBridge := by decide +kernel
    have hchild : Child (pciNext freshBridge) 0 0 := ⟨⟨0, 0, 0⟩, by decide +kernel⟩
    exact acc_irrefl (traceAll_isSome_iff.1 ⟨fuel, t, ht⟩ 0 hroot) hchild
  · have hscan : (pciScanAllBuses twoBridges 2).map (fun x => (x.1, x.2.map PciDevice.address)) =
        some (0, [0x80000000, 0x80010000, 0x80000800, 0x80010000]) := by decide +kernel
    obtain ⟨⟨ret, devs⟩, hdevs, heq⟩ := Option.map_eq_some_iff.1 hscan
    obtain ⟨rfl, haddress⟩ : ret = 0 ∧ devs.map PciDevice.address = _ := Prod.mk.inj heq
    refine ⟨devs, hdevs, ?_⟩
    rw [haddress]
    decide

end Nettapus
