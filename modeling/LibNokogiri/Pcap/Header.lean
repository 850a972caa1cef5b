import LibNokogiri.Common

/-! # The pcap file header -/

namespace LibNokogiri.Pcap

open ByteCodec Internal

/-- The enumeration has a fixed 32-bit underlying type, so a cast yields a
value that no enumerator names for every other word. -/
inductive PcapVariantT
  | standard
  | modified
  | ixiahw
  | ixiasw
  | nanosecond
  | swappedStandard
  | swappedModified
  | swappedIXIAHW
  | swappedIXIASW
  | swappedNanosecond
  | unnamed (value : UInt32)
deriving DecidableEq

namespace PcapVariantT

def value : PcapVariantT → UInt32
  | .standard => 0xA1B2C3D4
  | .modified => 0xA1B2CD34
  | .ixiahw => 0x1C0001AC
  | .ixiasw => 0x1C0001AB
  | .nanosecond => 0xA1B23C4D
  | .swappedStandard => 0xD4C3B2A1
  | .swappedModified => 0x34CDB2A1
  | .swappedIXIAHW => 0xAC01001C
  | .swappedIXIASW => 0xAB01001C
  | .swappedNanosecond => 0x4D3CB2A1
  | .unnamed value => value

/-- `static_cast<pcap_variant_t>` -/
def ofUInt32 (value : UInt32) : PcapVariantT :=
  if value = PcapVariantT.standard.value then .standard
  else if value = PcapVariantT.modified.value then .modified
  else if value = PcapVariantT.ixiahw.value then .ixiahw
  else if value = PcapVariantT.ixiasw.value then .ixiasw
  else if value = PcapVariantT.nanosecond.value then .nanosecond
  else if value = PcapVariantT.swappedStandard.value then .swappedStandard
  else if value = PcapVariantT.swappedModified.value then .swappedModified
  else if value = PcapVariantT.swappedIXIAHW.value then .swappedIXIAHW
  else if value = PcapVariantT.swappedIXIASW.value then .swappedIXIASW
  else if value = PcapVariantT.swappedNanosecond.value then .swappedNanosecond
  else .unnamed value

def isUnswapped : PcapVariantT → Bool
  | .standard | .modified | .ixiahw | .ixiasw | .nanosecond => true
  | _ => false

def isSwapped : PcapVariantT → Bool
  | .swappedStandard | .swappedModified | .swappedIXIAHW | .swappedIXIASW
  | .swappedNanosecond => true
  | _ => false

end PcapVariantT

def pcapVariantS : List (EnumPairT PcapVariantT) :=
  [⟨.standard, "Standard"⟩, ⟨.modified, "Modified"⟩, ⟨.ixiahw, "IXIAHW"⟩, ⟨.ixiasw, "IXIASW"⟩,
   ⟨.nanosecond, "Nanosecond"⟩, ⟨.swappedStandard, "Swapped Standard"⟩,
   ⟨.swappedModified, "Swapped Modified"⟩, ⟨.swappedIXIAHW, "SwappedIXIAHW"⟩,
   ⟨.swappedIXIASW, "SwappedIXIASW"⟩, ⟨.swappedNanosecond, "SwappedNanosecond"⟩]

structure FileHeaderT where
  variant : PcapVariantT := .standard
  version : VersionT := ⟨1, 0⟩
  tzOffset : Int32 := 0
  timestampFigs : UInt32 := 0
  pcklenMax : UInt32 := 0
  network : LinkTypeT := LinkTypeT.user0
deriving DecidableEq

end LibNokogiri.Pcap
