import LibNokogiri.Internal.Defs
import LibNokogiri.Internal.Fd

/-! # Types shared by the capture formats -/

namespace LibNokogiri

open ByteCodec Internal

/-- A link type is any 16-bit value; the enumerators only name some of them. -/
structure LinkTypeT where
  value : UInt16
deriving DecidableEq

def LinkTypeT.user0 : LinkTypeT := ⟨0x0093⟩

def linkTypeS : List (EnumPairT LinkTypeT) :=
  [⟨⟨0x0000⟩, "BSDLoopback"⟩, ⟨⟨0x0001⟩, "Ethernet"⟩, ⟨⟨0x0003⟩, "AX25"⟩, ⟨⟨0x0006⟩, "IEEE802_5"⟩,
   ⟨⟨0x0007⟩, "ARCNET_BSD"⟩, ⟨⟨0x0008⟩, "SLIP"⟩, ⟨⟨0x0009⟩, "PPP"⟩, ⟨⟨0x000A⟩, "FDDI"⟩,
   ⟨⟨0x0032⟩, "PPP_HDLC"⟩, ⟨⟨0x0033⟩, "PPPoE"⟩, ⟨⟨0x0064⟩, "ATM_RFC1483"⟩, ⟨⟨0x0065⟩, "Raw"⟩,
   ⟨⟨0x0068⟩, "CiscoHDLC"⟩, ⟨⟨0x0069⟩, "IEEE802_11"⟩, ⟨⟨0x006B⟩, "LAPFFrameRelay"⟩,
   ⟨⟨0x006C⟩, "OpenBSDLoopback"⟩, ⟨⟨0x0071⟩, "LinuxSLL"⟩, ⟨⟨0x0072⟩, "AppleLocalTalk"⟩,
   ⟨⟨0x0075⟩, "OpenBSDPFLog"⟩, ⟨⟨0x0077⟩, "IEEE802_11_Prism"⟩, ⟨⟨0x007A⟩, "IPOverFC"⟩,
   ⟨⟨0x007B⟩, "SunATM"⟩, ⟨⟨0x007F⟩, "IEEE802_11_Radiotap"⟩, ⟨⟨0x0081⟩, "ARCNETLinux"⟩,
   ⟨⟨0x008A⟩, "AppleIPOverIEEE1394"⟩, ⟨⟨0x008B⟩, "MTP2WithPHeader"⟩, ⟨⟨0x008C⟩, "MTP2"⟩,
   ⟨⟨0x008D⟩, "MTP3"⟩, ⟨⟨0x008E⟩, "SCCP"⟩, ⟨⟨0x008F⟩, "DOCSIS"⟩, ⟨⟨0x0090⟩, "LinuxIrDA"⟩,
   ⟨⟨0x0093⟩, "User0"⟩, ⟨⟨0x0094⟩, "User1"⟩, ⟨⟨0x0095⟩, "User2"⟩, ⟨⟨0x0096⟩, "User3"⟩,
   ⟨⟨0x0097⟩, "User4"⟩, ⟨⟨0x0098⟩, "User5"⟩, ⟨⟨0x0099⟩, "User6"⟩, ⟨⟨0x009A⟩, "User7"⟩,
   ⟨⟨0x009B⟩, "User8"⟩, ⟨⟨0x009C⟩, "User9"⟩, ⟨⟨0x009D⟩, "User10"⟩, ⟨⟨0x009E⟩, "User11"⟩,
   ⟨⟨0x009F⟩, "User12"⟩, ⟨⟨0x00A0⟩, "User13"⟩, ⟨⟨0x00A1⟩, "User14"⟩, ⟨⟨0x00A2⟩, "User15"⟩,
   ⟨⟨0x00A3⟩, "IEEE802_11_AVS"⟩, ⟨⟨0x00A5⟩, "BACNet_MS_TP"⟩, ⟨⟨0x00A6⟩, "PPP_PPPD"⟩,
   ⟨⟨0x00A9⟩, "GPRS_LLC"⟩, ⟨⟨0x00AA⟩, "GPF_T"⟩, ⟨⟨0x00AB⟩, "GPF_F"⟩, ⟨⟨0x00B1⟩, "LinuxLAPD"⟩,
   ⟨⟨0x00B6⟩, "MFR"⟩, ⟨⟨0x00BB⟩, "BluetoothHCI_H4"⟩, ⟨⟨0x00BD⟩, "USBLinux"⟩, ⟨⟨0x00C0⟩, "PPI"⟩,
   ⟨⟨0x00C3⟩, "IEEE802_15_4_WithFCS"⟩, ⟨⟨0x00C4⟩, "SITA"⟩, ⟨⟨0x00C5⟩, "ERF"⟩,
   ⟨⟨0x00C9⟩, "BluetoothHCI_H4WithPhdr"⟩, ⟨⟨0x00CA⟩, "AX25_KIDD"⟩, ⟨⟨0x00CB⟩, "LAPD"⟩,
   ⟨⟨0x00CC⟩, "PPPWithDir"⟩, ⟨⟨0x00CD⟩, "CiscoHDLCWithDir"⟩, ⟨⟨0x00CE⟩, "FrameRelayWithDir"⟩,
   ⟨⟨0x00CF⟩, "LAPBWithDir"⟩, ⟨⟨0x00D1⟩, "Ipmb_linux"⟩, ⟨⟨0x00D7⟩, "IEEE802_15_4_nonask_phy"⟩,
   ⟨⟨0x00DC⟩, "UUSBLinuxMmapped"⟩, ⟨⟨0x00E0⟩, "FC2"⟩, ⟨⟨0x00E1⟩, "FC2WithFrameDelims"⟩,
   ⟨⟨0x00E2⟩, "IPNET"⟩, ⟨⟨0x00E3⟩, "CANSocketCan"⟩, ⟨⟨0x00E4⟩, "IpV4"⟩, ⟨⟨0x00E5⟩, "IpV6"⟩,
   ⟨⟨0x00E6⟩, "IEEE802_15_4_nofcs"⟩, ⟨⟨0x00E7⟩, "DBus"⟩, ⟨⟨0x00EB⟩, "DVB_CI"⟩,
   ⟨⟨0x00EC⟩, "Mux27010"⟩, ⟨⟨0x00ED⟩, "Stanag5066DPDU"⟩, ⟨⟨0x00EF⟩, "NFLog"⟩,
   ⟨⟨0x00F0⟩, "NetAnalyzer"⟩, ⟨⟨0x00F1⟩, "NetAnalyzerTransparent"⟩, ⟨⟨0x00F2⟩, "IPoIB"⟩,
   ⟨⟨0x00F3⟩, "MPEG2Transport"⟩, ⟨⟨0x00F4⟩, "NG40"⟩, ⟨⟨0x00F5⟩, "NFC_LLCP"⟩,
   ⟨⟨0x00F7⟩, "InfiniBand"⟩, ⟨⟨0x00F8⟩, "SCTP"⟩, ⟨⟨0x00F9⟩, "USBPcap"⟩, ⟨⟨0x00FA⟩, "RTACSerial"⟩,
   ⟨⟨0x00FB⟩, "BluetoothLELL"⟩, ⟨⟨0x00FD⟩, "Netlink"⟩, ⟨⟨0x00FE⟩, "BluetoothLinuxMonitor"⟩,
   ⟨⟨0x00FF⟩, "Bluetooth_bredr_bb"⟩, ⟨⟨0x0100⟩, "BluetoothLELLWithPHDR"⟩,
   ⟨⟨0x0101⟩, "PROFIBUSDatalink"⟩, ⟨⟨0x0102⟩, "PKTAP"⟩, ⟨⟨0x0103⟩, "EoPON"⟩,
   ⟨⟨0x0104⟩, "IPMI_hpm_2"⟩, ⟨⟨0x0105⟩, "ZWaveR1R2"⟩, ⟨⟨0x0106⟩, "ZWaveR3"⟩,
   ⟨⟨0x0107⟩, "WattStopperDLM"⟩, ⟨⟨0x0108⟩, "ISO14443"⟩, ⟨⟨0x0109⟩, "RDS"⟩,
   ⟨⟨0x010A⟩, "USBDarwin"⟩, ⟨⟨0x010C⟩, "SDLC"⟩, ⟨⟨0x010E⟩, "LoRaTap"⟩, ⟨⟨0x010F⟩, "VSOCK"⟩,
   ⟨⟨0x0110⟩, "NordicBLE"⟩, ⟨⟨0x0111⟩, "DOCSIS31_XRA31"⟩, ⟨⟨0x0112⟩, "Ethernet_mpacket"⟩,
   ⟨⟨0x0113⟩, "DisplayportAux"⟩, ⟨⟨0x0114⟩, "LinuxSLL2"⟩, ⟨⟨0x0116⟩, "Openvizsla"⟩,
   ⟨⟨0x0117⟩, "EBHSCR"⟩, ⟨⟨0x0118⟩, "VPPDispatch"⟩, ⟨⟨0x0119⟩, "DSATagBRCM"⟩,
   ⟨⟨0x011A⟩, "DSATagBRCMPrepend"⟩, ⟨⟨0x011B⟩, "IEEE802_15_4_Tap"⟩, ⟨⟨0x011C⟩, "DSATagDSA"⟩,
   ⟨⟨0x011D⟩, "DSATagEDSA"⟩, ⟨⟨0x011E⟩, "ELEE"⟩, ⟨⟨0x011F⟩, "ZWaveSerial"⟩, ⟨⟨0x0120⟩, "USB2"⟩,
   ⟨⟨0x0121⟩, "ATSC_ALP"⟩]

inductive CaptureCompressionT
  | uncompressed
  | compressed
  | autodetect
  | unknown
deriving DecidableEq, Repr

def captureCompressionS : List (EnumPairT CaptureCompressionT) :=
  [⟨.uncompressed, "Uncompressed"⟩, ⟨.compressed, "Compressed"⟩, ⟨.autodetect, "Autodetect"⟩,
   ⟨.unknown, "Unknown"⟩]

structure VersionT where
  major : UInt16
  minor : UInt16
deriving DecidableEq

namespace VersionT

variable (self ver : VersionT)

def majorVersion : UInt32 := self.major.toUInt32

def minorVersion : UInt32 := self.minor.toUInt32

-- the operators ==, !=, >, >=, < and <=

def eq : Bool :=
  self.major.toUInt32 == ver.majorVersion && self.minor.toUInt32 == ver.minorVersion

def ne : Bool := !self.eq ver

def gt : Bool :=
  (decide (self.major.toUInt32 > ver.majorVersion) &&
      decide (self.minor.toUInt32 ≥ ver.minorVersion)) ||
    (decide (self.major.toUInt32 ≥ ver.majorVersion) &&
      decide (self.minor.toUInt32 > ver.minorVersion))

def ge : Bool := self.gt ver || self.eq ver

/-- `operator<`, whose second clause compares the minor version with a major one. -/
def lt : Bool :=
  (decide (self.major.toUInt32 < ver.majorVersion) &&
      decide (self.minor.toUInt32 ≤ ver.minorVersion)) ||
    (decide (self.minor.toUInt32 ≤ ver.majorVersion) &&
      decide (self.minor.toUInt32 < ver.minorVersion))

def le : Bool := self.lt ver || self.eq ver

end VersionT

namespace Internal

def gzipHeader : Bytes := [0x1F, 0x8B]

def detectCaptrueCompression (file : Fd) : CaptureCompressionT × Fd :=
  let res := file.readExact 2
  let file := res.2.head.2
  match res.1 with
  | none => (.unknown, file)
  | some readBytes => (if readBytes = gzipHeader then .compressed else .uncompressed, file)

end Internal

end LibNokogiri
