import Mathlib.Algebra.GroupWithZero.Nat
import Mathlib.Data.List.Basic
import Mathlib.Tactic.Common

/-!
# The PCI bus (`pci/pci.c`)

The configuration space is a function: what the value port gives after an address was written to the address port. The scan is
not bounded by the program, so it has a fuel here, the number of calls of `pci_scan_bus` that are open at once; without a
result it was too little. There is memory for every device, and the linked list is a list.
-/

namespace Nettapus

abbrev PciConfig := UInt32 → UInt32

/-- `pci_device_t`. Only the address registers that are set are in `bars`. -/
structure PciDevice where
  address : UInt32
  headerType : UInt8
  deviceId : UInt32
  vendorId : UInt32
  classCode : UInt8
  subclassCode : UInt8
  progIf : UInt8
  revisionId : UInt8
  bars : List UInt32
  deriving DecidableEq, Repr

def pciGetAddress (bus slot func : UInt8) : UInt32 :=
  bus.toUInt32 <<< 16 ||| slot.toUInt32 <<< 11 ||| func.toUInt32 <<< 8 ||| 0x80000000

section

variable (cfg : PciConfig)

def pciReadField (address : UInt32) (offset : UInt8) : UInt32 := cfg (address ||| (offset &&& 0xfc).toUInt32)

def pciGetVendorId (address : UInt32) : UInt16 := (pciReadField cfg address 0 &&& 0xFFFF).toUInt16

def pciGetDeviceId (address : UInt32) : UInt16 := (pciReadField cfg address 0 >>> 16 &&& 0xFFFF).toUInt16

def pciGetHeaderType (address : UInt32) : UInt8 := (pciReadField cfg address 0xc >>> 16 &&& 0xFF).toUInt8

def pciGetClassCode (address : UInt32) : UInt8 := (pciReadField cfg address 8 >>> 24 &&& 0xFF).toUInt8

def pciGetSubclassCode (address : UInt32) : UInt8 := (pciReadField cfg address 8 >>> 16 &&& 0xFF).toUInt8

def pciGetProgIf (address : UInt32) : UInt8 := (pciReadField cfg address 8 >>> 8 &&& 0xFF).toUInt8

def pciGetSecondaryBus (address : UInt32) : UInt8 := (pciReadField cfg address 0x18 >>> 8 &&& 0xFF).toUInt8

/-- The base addresses that `pci_reg_device` reads, by the type of the header. -/
def pciBars (address : UInt32) (headerType : UInt8) : List UInt32 :=
  if headerType &&& 0x7f = 0 then [0x10, 0x14, 0x18, 0x1C, 0x20, 0x24].map (pciReadField cfg address)
  else if headerType &&& 0x7f = 1 then [0x10, 0x14].map (pciReadField cfg address)
  else []

/-- The device goes to the end of the list. -/
def pciRegDevice (bus slot func : UInt8) (devs : List PciDevice) : List PciDevice :=
  let address := pciGetAddress bus slot func
  let vendorId := pciGetVendorId cfg address
  if vendorId = 0xFFFF then devs
  else
    devs ++ [{
      address
      headerType := pciGetHeaderType cfg address
      deviceId := (pciGetDeviceId cfg address).toUInt32
      vendorId := vendorId.toUInt32
      classCode := pciGetClassCode cfg address
      subclassCode := pciGetSubclassCode cfg address
      progIf := pciGetProgIf cfg address
      revisionId := (pciReadField cfg address 8 &&& 0xFF).toUInt8
      bars := pciBars cfg address (pciGetHeaderType cfg address) }]

/-- `pci_check_function` with the `pci_scan_bus` that it calls. -/
def pciCheckFunction (scanBus : UInt8 → List PciDevice → Option (List PciDevice)) (bus slot func : UInt8)
    (devs : List PciDevice) : Option (List PciDevice) :=
  let address := pciGetAddress bus slot func
  let devs := pciRegDevice cfg bus slot func devs
  if pciGetClassCode cfg address = 0x6 ∧ pciGetSubclassCode cfg address = 0x4 then
    scanBus (pciGetSecondaryBus cfg address) devs
  else some devs

/-- The values of a counter below `n`. -/
def counter (n : ℕ) : List UInt8 := (List.range n).map UInt8.ofNat

def pciScanBus : ℕ → UInt8 → List PciDevice → Option (List PciDevice)
  | 0, _, _ => none
  | fuel + 1, bus, devs =>
    (counter 32).foldlM (fun devs slot =>
      if pciGetHeaderType cfg (pciGetAddress bus slot 0) &&& 0x80 ≠ 0 then
        (counter 8).foldlM (fun devs func => pciCheckFunction cfg (pciScanBus fuel) bus slot func devs) devs
      else pciCheckFunction cfg (pciScanBus fuel) bus slot 0 devs) devs

/-- The result, and the devices that were found. -/
def pciScanAllBuses (fuel : ℕ) : Option (UInt8 × List PciDevice) :=
  if pciGetHeaderType cfg (pciGetAddress 0 0 0) &&& 0x80 ≠ 0 then
    ((counter 8).foldlM (fun devs func =>
      if pciGetVendorId cfg (pciGetAddress 0 0 func) = 0xFFFF then some devs
      else pciScanBus cfg fuel func devs) []).map fun devs => (1, devs)
  else (pciScanBus cfg fuel 0 []).map fun devs => (0, devs)

end

end Nettapus
