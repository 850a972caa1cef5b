import LibNokogiri.Pcap.Capture

/-! # The documented file layout

Captures as values, and the bytes they are stored as: a 24-byte file header,
then each record as a packet header and a body. Every multi-byte field is
written in one byte order, the order of the machine that took the capture.
-/

namespace LibNokogiri.Pcap

open ByteCodec Framing

/-! ## Fields -/

/-- The fields of a file header. The last one is wider in the file than the
type it is read into. -/
structure CaptureHeader where
  variant : PcapVariantT
  unswapped : variant.isUnswapped = true
  major : UInt16
  minor : UInt16
  tzOffset : Int32
  timestampFigs : UInt32
  pcklenMax : UInt32
  network : UInt32

def CaptureHeader.bytes (order : Order) (h : CaptureHeader) : Bytes :=
  store order h.variant.value ++ (store order h.major ++ (store order h.minor ++
    (store order h.tzOffset ++ (store order h.timestampFigs ++
      (store order h.pcklenMax ++ store order h.network)))))

def CaptureHeader.decoded (h : CaptureHeader) : FileHeaderT where
  variant := h.variant
  version := ⟨h.major, h.minor⟩
  tzOffset := h.tzOffset
  timestampFigs := h.timestampFigs
  pcklenMax := h.pcklenMax
  network := ⟨h.network.toUInt16⟩

def PacketHeaderT.bytes (order : Order) (h : PacketHeaderT) : Bytes :=
  store order h.timestamp ++ (store order h.useconds ++
    (store order h.capturedLen ++ store order h.actualLen))

def PacketHeaderModifiedT.bytes (order : Order) (h : PacketHeaderModifiedT) : Bytes :=
  h.baseHeader.bytes order ++ (store order h.interfaceIndex ++ (store order h.protocol ++
    (store order h.type ++ store order h.padding)))

@[simp] theorem CaptureHeader.bytes_length (order : Order) (h : CaptureHeader) :
    (h.bytes order).length = 24 := by
  simp only [CaptureHeader.bytes, List.length_append, store_length]
  rfl

@[simp] theorem PacketHeaderT.bytes_length (order : Order) (h : PacketHeaderT) :
    (h.bytes order).length = 16 := by
  simp only [PacketHeaderT.bytes, List.length_append, store_length]
  rfl

@[simp] theorem PacketHeaderModifiedT.bytes_length (order : Order) (h : PacketHeaderModifiedT) :
    (h.bytes order).length = 24 := by
  simp only [PacketHeaderModifiedT.bytes, List.length_append, store_length,
    PacketHeaderT.bytes_length]
  rfl

/-! ## Records -/

/-- A record; only the Modified variant stores more than the base header. -/
structure Record where
  header : PacketHeaderModifiedT
  body : Bytes
  body_length : body.length = header.baseHeader.capturedLen.toNat

def packetHeaderSize : PcapVariantT → Nat
  | .modified => 24
  | _ => 16

theorem packetHeaderSize_eq (variant : PcapVariantT) :
    packetHeaderSize variant = 12 + getPacketBodyOffset variant := by
  cases variant <;> rfl

theorem le_packetHeaderSize (variant : PcapVariantT) : 16 ≤ packetHeaderSize variant := by
  unfold packetHeaderSize
  split <;> omega

def recordFormat (host : Order) (variant : PcapVariantT) : Format where
  order := host
  lengthOffset := 8
  lengthWidth := 4
  headerSize := packetHeaderSize variant
  field_in_header := by
    rw [packetHeaderSize_eq]
    omega
  header_pos := by
    rw [packetHeaderSize_eq]
    omega

namespace Record

def headerBytes (order : Order) (variant : PcapVariantT) (r : Record) : Bytes :=
  match variant with
  | .modified => r.header.bytes order
  | _ => r.header.baseHeader.bytes order

/-- The packet header that `get_packet` should return for the record. -/
def pktHeader (variant : PcapVariantT) (r : Record) : PktHeaderT :=
  match variant with
  | .modified => .modified r.header
  | _ => .standard r.header.baseHeader

theorem headerBytes_length (order : Order) (variant : PcapVariantT) (r : Record) :
    (r.headerBytes order variant).length = packetHeaderSize variant := by
  cases variant <;> simp [headerBytes, packetHeaderSize]

def frame (host order : Order) (variant : PcapVariantT) (r : Record) :
    Format.Frame (recordFormat host variant) where
  header := r.headerBytes order variant
  body := r.body
  header_length := r.headerBytes_length order variant

end Record

/-! ## Captures -/

structure CaptureValue where
  header : CaptureHeader
  records : List Record

namespace CaptureValue

/-- The file of a capture taken on a machine with byte order `order`. -/
def bytes (order : Order) (c : CaptureValue) : Bytes :=
  c.header.bytes order ++
    c.records.flatMap fun r => r.headerBytes order c.header.variant ++ r.body

def index (c : CaptureValue) : List Entry :=
  go 24 c.records
where
  go (pos : Nat) : List Record → List Entry
    | [] => []
    | r :: rs =>
        ⟨r.body.length, pos⟩ ::
          go (pos + packetHeaderSize c.header.variant + r.body.length) rs

end CaptureValue

end LibNokogiri.Pcap
