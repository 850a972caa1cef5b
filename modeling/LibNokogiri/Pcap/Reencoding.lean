import LibNokogiri.Foundation.Splicing
import LibNokogiri.Pcap.Calls
import LibNokogiri.Pcap.Objects

/-! # Packets written back

A packet as `get_packet` returns it holds all that the file says about its
record. So an accepted file is its header followed by the records of its
packets, and a file laid out in this way is accepted with just these packets.
-/

namespace LibNokogiri.Pcap

open ByteCodec Framing Internal PcapT

/-! ## Packet headers -/

theorem PacketHeaderT.bytes_ofBytes (host : Order) {bs : Bytes} (h : bs.length = 16) :
    (Pod.ofBytes host bs : PacketHeaderT).bytes host = bs := by
  have hfield : ∀ offset, offset + 4 ≤ 16 →
      store host (load host (slice bs offset 4) : UInt32) = slice bs offset 4 :=
    fun offset hle => store_load host (slice_length_of_le (by omega))
  have hfirst : slice bs 0 4 = bs.take 4 := rfl
  simp only [Pod.ofBytes, PacketHeaderT.bytes, hfield 0 (by decide), hfield 4 (by decide),
    hfield 8 (by decide), hfield 12 (by decide)]
  simp only [hfirst, ← List.append_assoc, take_append_slice]
  exact List.take_of_length_le (Nat.le_of_eq h)

theorem PacketHeaderModifiedT.bytes_ofBytes (host : Order) {bs : Bytes} (h : bs.length = 24) :
    (Pod.ofBytes host bs : PacketHeaderModifiedT).bytes host = bs := by
  have hbase : (Pod.ofBytes host (slice bs 0 16) : PacketHeaderT).bytes host = bs.take 16 :=
    PacketHeaderT.bytes_ofBytes host (slice_length_of_le (by omega))
  have hinterface : store host (load host (slice bs 16 4) : UInt32) = slice bs 16 4 :=
    store_load host (slice_length_of_le (by omega))
  have hprotocol : store host (load host (slice bs 20 2) : UInt16) = slice bs 20 2 :=
    store_load host (slice_length_of_le (by omega))
  have hbyte : ∀ offset, offset + 1 ≤ 24 →
      store host (load host (slice bs offset 1) : UInt8) = slice bs offset 1 :=
    fun offset hle => store_load host (slice_length_of_le (by omega))
  have hbytes : (Pod.ofBytes host bs : PacketHeaderModifiedT).bytes host =
      (Pod.ofBytes host (slice bs 0 16) : PacketHeaderT).bytes host ++
        (store host (load host (slice bs 16 4) : UInt32) ++
          (store host (load host (slice bs 20 2) : UInt16) ++
            (store host (load host (slice bs 22 1) : UInt8) ++
              store host (load host (slice bs 23 1) : UInt8)))) := rfl
  rw [hbytes, hbase, hinterface, hprotocol, hbyte 22 (by decide), hbyte 23 (by decide)]
  simp only [← List.append_assoc, take_append_slice]
  exact List.take_of_length_le (Nat.le_of_eq h)

namespace PktHeaderT

def bytes (host : Order) : PktHeaderT → Bytes
  | .monostate => []
  | .standard header => header.bytes host
  | .modified header => header.bytes host

/-- The header has the members that the variant stores. -/
def OfVariant (header : PktHeaderT) : PcapVariantT → Prop
  | .modified => ∃ h, header = .modified h
  | _ => ∃ h, header = .standard h

variable {host : Order} {variant : PcapVariantT}

theorem ofVariant_pktHeaderOf (host : Order) (variant : PcapVariantT) (bs : Bytes) :
    (pktHeaderOf host variant bs).OfVariant variant := by
  cases variant <;> exact ⟨_, rfl⟩

theorem bytes_pktHeaderOf {bs : Bytes} (h : bs.length = packetHeaderSize variant) :
    (pktHeaderOf host variant bs).bytes host = bs := by
  cases variant with
  | modified => exact PacketHeaderModifiedT.bytes_ofBytes host h
  | _ => exact PacketHeaderT.bytes_ofBytes host h

theorem OfVariant.bytes_length {header : PktHeaderT} (h : header.OfVariant variant) :
    (header.bytes host).length = packetHeaderSize variant := by
  cases variant <;>
    obtain ⟨_, rfl⟩ := h <;>
    first
      | exact PacketHeaderModifiedT.bytes_length host _
      | exact PacketHeaderT.bytes_length host _

theorem OfVariant.pktHeaderOf_bytes {header : PktHeaderT} (h : header.OfVariant variant) :
    pktHeaderOf host variant (header.bytes host) = header := by
  cases variant <;>
    obtain ⟨hdr, rfl⟩ := h <;>
    first
      | exact congrArg PktHeaderT.modified (ofBytes_bytes_modified host false hdr)
      | exact congrArg PktHeaderT.standard (ofBytes_bytes host false hdr)

end PktHeaderT

/-! ## Packets and records -/

namespace PacketT

variable {host : Order} {variant : PcapVariantT}

def recordBytes (host : Order) (self : PacketT) : Bytes :=
  self.packetHeader.bytes host ++ self.rawData

/-- The packet is one that a capture of the variant can hold. -/
structure Complete (variant : PcapVariantT) (packet : PacketT) : Prop where
  header : packet.packetHeader.OfVariant variant
  length : packet.rawData.length = packet.packetHeader.capturedLen

def ofRecord (host : Order) (variant : PcapVariantT) (bs : Bytes) : PacketT where
  rawData := bs.drop (packetHeaderSize variant)
  packetHeader := pktHeaderOf host variant (bs.take (packetHeaderSize variant))

theorem recordBytes_ofRecord {bs : Bytes} (h : packetHeaderSize variant ≤ bs.length) :
    (ofRecord host variant bs).recordBytes host = bs := by
  rw [recordBytes, ofRecord, PktHeaderT.bytes_pktHeaderOf (List.length_take_of_le h),
    List.take_append_drop]

theorem Complete.ofRecord_recordBytes {self : PacketT} (h : self.Complete variant) :
    ofRecord host variant (self.recordBytes host) = self := by
  have hlen : (self.packetHeader.bytes host).length = packetHeaderSize variant :=
    h.header.bytes_length
  rw [ofRecord, recordBytes, List.drop_left' hlen, List.take_left' hlen,
    h.header.pktHeaderOf_bytes]

def frame (host : Order) (self : PacketT) (h : self.Complete variant) :
    Format.Frame (recordFormat host variant) where
  header := self.packetHeader.bytes host
  body := self.rawData
  header_length := h.header.bytes_length

theorem frame_field {self : PacketT} (h : self.Complete variant) :
    (self.frame host h).field = (self.frame host h).body.length := by
  have hlen : (self.packetHeader.bytes host).length = packetHeaderSize variant :=
    h.header.bytes_length
  have hheader : pktHeaderIn host variant (self.packetHeader.bytes host) 0 = self.packetHeader := by
    rw [pktHeaderIn, ← hlen, slice, List.drop_zero, List.take_length, h.header.pktHeaderOf_bytes]
  have hannounced := PcapT.capturedLen_pktHeaderIn host variant (self.packetHeader.bytes host) 0
  have hwidth : (slice (self.packetHeader.bytes host) (0 + 8) 4).length = Scalar.width UInt32 := by
    have hle := le_packetHeaderSize variant
    exact slice_length_of_le (by omega)
  rw [hheader, PcapT.announcedLen, ← h.length] at hannounced
  rw [frame, hannounced]
  exact (toNat_load host hwidth).symm

end PacketT

/-! ## Accepted files -/

section Accepted

variable {host : Order} {variant : PcapVariantT} {content : Bytes} {ps : List PacketT}

/-- At an entry of a tiling, `get_packet` finds the packet of the record. -/
theorem packetIn_recordOf {pos : Nat} {es : List Entry}
    (h : (recordFormat host variant).Tiles content pos es) {e : Entry} (he : e ∈ es) :
    packetIn host variant content e.offset =
        some (PacketT.ofRecord host variant ((recordFormat host variant).recordOf content e)) ∧
      (PacketT.ofRecord host variant
        ((recordFormat host variant).recordOf content e)).Complete variant ∧
      packetHeaderSize variant ≤ ((recordFormat host variant).recordOf content e).length := by
  obtain ⟨_, hlength, hend⟩ := h.mem he
  have hend' : e.offset + packetHeaderSize variant + e.length ≤ content.length := hend
  have hsize := le_packetHeaderSize variant
  have hcaptured : (pktHeaderIn host variant content e.offset).capturedLen = e.length := by
    rw [PcapT.capturedLen_pktHeaderIn, hlength]
    exact toNat_lengthAt (show e.offset + 8 + 4 ≤ content.length by omega)
  have htake : ((recordFormat host variant).recordOf content e).take (packetHeaderSize variant) =
      slice content e.offset (packetHeaderSize variant) := take_slice content e.offset _ _
  have hdrop : ((recordFormat host variant).recordOf content e).drop (packetHeaderSize variant) =
      slice content (e.offset + packetHeaderSize variant) e.length := drop_slice content e.offset _ _
  have hlen : ((recordFormat host variant).recordOf content e).length =
      packetHeaderSize variant + e.length :=
    slice_length_of_le (show e.offset + (packetHeaderSize variant + e.length) ≤ _ by omega)
  have hpacket : PacketT.ofRecord host variant ((recordFormat host variant).recordOf content e) =
      ⟨slice content (e.offset + packetHeaderSize variant) e.length,
        pktHeaderIn host variant content e.offset⟩ := by
    rw [PacketT.ofRecord, htake, hdrop]
    rfl
  refine ⟨?_, ?_, by omega⟩
  · rw [hpacket, packetIn, hcaptured]
    exact if_pos ⟨by omega, hend'⟩
  · rw [hpacket]
    refine ⟨PktHeaderT.ofVariant_pktHeaderOf host variant _, ?_⟩
    dsimp only
    rw [hcaptured]
    exact slice_length_of_le hend'

/-- An accepted scan finds packets whose records are the rest of the file. -/
theorem records_of_scan
    (hscan : ((recordFormat host variant).scan content 24).2 = true)
    (hpackets : ((recordFormat host variant).scan content 24).1.map
      (fun e => packetIn host variant content e.offset) = ps.map some) :
    ps ≠ [] ∧ (∀ p ∈ ps, p.Complete variant) ∧
      content.drop 24 = ps.flatMap (PacketT.recordBytes host) := by
  obtain ⟨htiles, hne⟩ := Format.tiles_of_scan hscan
  generalize ((recordFormat host variant).scan content 24).1 = es at htiles hne hpackets
  have hps : ps = es.map fun e =>
      PacketT.ofRecord host variant ((recordFormat host variant).recordOf content e) := by
    rw [List.map_congr_left fun e he => (packetIn_recordOf htiles he).1] at hpackets
    apply (List.map_inj_right fun _ _ => Option.some.inj).mp
    rw [← hpackets, List.map_map]
    rfl
  refine ⟨?_, ?_, ?_⟩
  · rw [hps]
    exact fun hnil => hne (List.map_eq_nil_iff.mp hnil)
  · rw [hps]
    exact List.forall_mem_map.mpr fun e he => (packetIn_recordOf htiles he).2.1
  · rw [← htiles.flatMap_recordOf, hps, List.flatMap_map]
    refine congrArg List.flatten (List.map_congr_left fun e he => ?_)
    exact (PacketT.recordBytes_ofRecord (packetIn_recordOf htiles he).2.2).symm

/-- A file whose rest consists of the records of some packets is scanned into
these packets. -/
theorem scan_of_records (hsize : 24 ≤ content.length) (hne : ps ≠ [])
    (hcomplete : ∀ p ∈ ps, p.Complete variant)
    (hcontent : content.drop 24 = ps.flatMap (PacketT.recordBytes host)) :
    ((recordFormat host variant).scan content 24).2 = true ∧
      ((recordFormat host variant).scan content 24).1.map
        (fun e => packetIn host variant content e.offset) = ps.map some := by
  have hlen : (content.take 24).length = 24 := List.length_take_of_le hsize
  have hlayout : ∀ (qs : List PacketT) (h : ∀ p ∈ qs, p.Complete variant),
      Format.layout (qs.pmap (PacketT.frame host) h) = qs.flatMap (PacketT.recordBytes host) := by
    intro qs h
    induction qs with
    | nil => rfl
    | cons q qs ih =>
        have hrest := ih fun p hp => h p (List.mem_cons_of_mem q hp)
        exact congrArg (q.recordBytes host ++ ·) hrest
  let frames := ps.pmap (PacketT.frame host) hcomplete
  have hsplit : content = content.take 24 ++ Format.layout frames := by
    rw [hlayout, ← hcontent, List.take_append_drop]
  have htiles : (recordFormat host variant).Tiles content 24 (Format.index 24 frames) := by
    have hfields : ∀ f ∈ frames, f.field = f.body.length := by
      intro f hf
      obtain ⟨p, hp, rfl⟩ := List.mem_pmap.mp hf
      exact PacketT.frame_field (hcomplete p hp)
    have h := (Format.tiles_layout_iff (content.take 24) frames).mpr hfields
    rwa [← hsplit, hlen] at h
  have hindex : Format.index 24 frames ≠ [] := by
    intro hnil
    apply hne
    have hcount := congrArg List.length hnil
    rw [Format.index_length, List.length_pmap] at hcount
    exact List.length_eq_zero_iff.mp hcount
  have hrecords : (Format.index 24 frames).map ((recordFormat host variant).recordOf content) =
      ps.map (PacketT.recordBytes host) := by
    have h := Format.map_recordOf_index (content.take 24) frames
    rw [← hsplit, hlen] at h
    rw [h, List.map_pmap]
    exact (List.pmap_eq_map hcomplete :
      ps.pmap (fun p _ => p.recordBytes host) hcomplete = ps.map (PacketT.recordBytes host))
  rw [Format.scan_of_tiles htiles hindex]
  refine ⟨rfl, ?_⟩
  calc
    (Format.index 24 frames).map (fun e => packetIn host variant content e.offset) =
        ((Format.index 24 frames).map ((recordFormat host variant).recordOf content)).map
          (some ∘ PacketT.ofRecord host variant) := by
      rw [List.map_map]
      exact List.map_congr_left fun e he => (packetIn_recordOf htiles he).1
    _ = ps.map ((some ∘ PacketT.ofRecord host variant) ∘ PacketT.recordBytes host) := by
      rw [hrecords, List.map_map]
    _ = ps.map some :=
      List.map_congr_left fun p hp => congrArg some (hcomplete p hp).ofRecord_recordBytes

end Accepted

/-! ## Captures -/

theorem map_eq_map_some_iff {α β : Type} {g : α → Option β} {xs : List α} {ys : List β} :
    xs.map g = ys.map some ↔ xs.length = ys.length ∧ ∀ i : Nat, xs[i]?.bind g = ys[i]? := by
  constructor
  · intro h
    refine ⟨by simpa using congrArg List.length h, ?_⟩
    intro i
    have hget := congrArg (·[i]?) h
    simp only [List.getElem?_map] at hget
    cases hx : xs[i]? <;> cases hy : ys[i]? <;> simp_all
  · rintro ⟨hlen, h⟩
    apply List.ext_getElem?
    intro i
    have hget := h i
    rw [List.getElem?_map, List.getElem?_map]
    cases hx : xs[i]? with
    | none =>
        rw [hx] at hget
        rw [← hget]
        rfl
    | some x =>
        have hlt : i < ys.length := hlen ▸ (List.getElem?_eq_some_iff.mp hx).choose
        rw [hx, List.getElem?_eq_getElem hlt] at hget
        rw [List.getElem?_eq_getElem hlt]
        exact congrArg some hget

theorem eq_take_append_iff (bs tail : Bytes) (count : Nat) :
    bs = bs.take count ++ tail ↔ bs.drop count = tail := by
  have hsplit := List.take_append_drop count bs
  constructor
  · intro h
    exact List.append_cancel_left (hsplit.trans h)
  · intro h
    rw [← h, hsplit]

namespace PcapT

/-- The packets of the capture, by `packet_count()` and `get_packet`. -/
def Holds (host : Order) (self : PcapT) (ps : List PacketT) : Prop :=
  self.packetCount = ps.length ∧ ∀ i, self.packetAt host i = ps[i]?

section Reads

variable {host : Order} {f : RegularFile} {capture : PcapT} {ps : List PacketT}

theorem Reads.holds_iff (h : capture.Reads host f) {swapped : Bool} {variant : PcapVariantT}
    (hheaded : headed host f.content = some (swapped, variant)) :
    capture.Holds host ps ↔ ((recordFormat host variant).scan f.content 24).1.map
      (fun e => packetIn host variant f.content e.offset) = ps.map some := by
  have hcount : capture.packetCount = ((recordFormat host variant).scan f.content 24).1.length := by
    rw [packetCount, h.packets, List.length_map, indexOf_headed hheaded]
  rw [Holds, map_eq_map_some_iff, hcount]
  simp only [h.packetAt_eq hheaded, indexOf_headed hheaded]

theorem Reads.headed_of_valid (h : capture.Reads host f) (hvalid : capture.valid = true) :
    ∃ swapped variant, headed host f.content = some (swapped, variant) ∧
      ((recordFormat host variant).scan f.content 24).2 = true := by
  rw [h.valid] at hvalid
  cases hheaded : headed host f.content with
  | none =>
      rw [indexOf, hheaded] at hvalid
      cases hvalid
  | some kind =>
      rw [indexOf_headed hheaded] at hvalid
      exact ⟨kind.1, kind.2, rfl, hvalid⟩

theorem Reads.valid_iff (h : capture.Reads host f) :
    capture.valid = true ∧ capture.Holds host ps ↔
      ps ≠ [] ∧ ∃ swapped variant, headed host f.content = some (swapped, variant) ∧
        (∀ p ∈ ps, p.Complete variant) ∧
        f.content.drop 24 = ps.flatMap (PacketT.recordBytes host) := by
  constructor
  · rintro ⟨hvalid, hholds⟩
    obtain ⟨swapped, variant, hheaded, hscan⟩ := h.headed_of_valid hvalid
    obtain ⟨hne, hcomplete, hrecords⟩ := records_of_scan hscan ((h.holds_iff hheaded).mp hholds)
    exact ⟨hne, swapped, variant, hheaded, hcomplete, hrecords⟩
  · rintro ⟨hne, swapped, variant, hheaded, hcomplete, hrecords⟩
    obtain ⟨hscan, hpackets⟩ := scan_of_records (headed_some hheaded).1 hne hcomplete hrecords
    rw [h.valid, indexOf_headed hheaded, h.holds_iff hheaded]
    exact ⟨hscan, hpackets⟩

theorem Reads.holds_of_valid (h : capture.Reads host f) (hvalid : capture.valid = true) :
    ∃ ps, capture.Holds host ps := by
  obtain ⟨swapped, variant, hheaded, hscan⟩ := h.headed_of_valid hvalid
  obtain ⟨htiles, _⟩ := Format.tiles_of_scan hscan
  refine ⟨((recordFormat host variant).scan f.content 24).1.map fun e =>
    PacketT.ofRecord host variant ((recordFormat host variant).recordOf f.content e), ?_⟩
  rw [h.holds_iff hheaded, List.map_map]
  exact List.map_congr_left fun e he => (packetIn_recordOf htiles he).1

end Reads

section Construct

variable (host : Order) (z : Zlib) (os : Opens) (file : String)
  (compression : CaptureCompressionT) (readOnly prefetch : Bool)

/-- The language that the container accepts, and what it makes of it: a plain
file is valid and gives the packets `ps` exactly when it is a file header
followed by the records of `ps` in the host's byte order, of which there is at
least one. -/
theorem construct_valid_iff {f : RegularFile} (hopen : os.capture = some f)
    (hplain : settled compression f.content ≠ .compressed) (ps : List PacketT) :
    let capture := construct host z os file compression readOnly prefetch
    capture.valid = true ∧ capture.Holds host ps ↔
      ps ≠ [] ∧ ∃ swapped variant, headed host f.content = some (swapped, variant) ∧
        (∀ p ∈ ps, p.Complete variant) ∧
        f.content = f.content.take 24 ++ ps.flatMap (PacketT.recordBytes host) := by
  intro capture
  have hreads : capture.Reads host f := by
    rw [show capture = _ from construct_plain host z file compression readOnly prefetch hopen hplain]
    exact parse_reads (opened_unread compression _ f file readOnly prefetch)
  rw [hreads.valid_iff]
  simp only [eq_take_append_iff]

end Construct

def Constructed (host : Order) (capture : PcapT) : Prop :=
  ∃ z os file compression readOnly prefetch,
    construct host z os file compression readOnly prefetch = capture

theorem Constructed.reads_of_valid {host : Order} {capture : PcapT}
    (h : capture.Constructed host) (hvalid : capture.valid = true) :
    ∃ f, capture.Reads host f := by
  obtain ⟨z, os, file, compression, readOnly, prefetch, rfl⟩ := h
  rcases construct_cases host z os file compression readOnly prefetch with
    ⟨f, hparsed, _⟩ | hbare
  · exact ⟨f, hparsed.reads⟩
  · rw [hbare.valid] at hvalid
    cases hvalid

/-- Nothing that a valid capture holds is lost: behind equal file headers, the
packets are the same exactly when all the bytes are. -/
theorem packets_determine_content {host : Order} {a b : PcapT} (ha : a.Constructed host)
    (hb : b.Constructed host) (hvalid : a.valid = true) (hvalid' : b.valid = true)
    (hheader : a.file.content.take 24 = b.file.content.take 24) :
    (a.packetCount = b.packetCount ∧ ∀ i, a.packetAt host i = b.packetAt host i) ↔
      a.file.content = b.file.content := by
  obtain ⟨f, hreads⟩ := ha.reads_of_valid hvalid
  obtain ⟨g, hreads'⟩ := hb.reads_of_valid hvalid'
  rw [hreads.onFile.content, hreads'.onFile.content] at hheader ⊢
  constructor
  · rintro ⟨hcount, hsame⟩
    obtain ⟨ps, hholds⟩ := hreads.holds_of_valid hvalid
    have hholds' : b.Holds host ps :=
      ⟨hcount.symm.trans hholds.1, fun i => (hsame i).symm.trans (hholds.2 i)⟩
    obtain ⟨_, _, _, _, _, hrecords⟩ := hreads.valid_iff.mp ⟨hvalid, hholds⟩
    obtain ⟨_, _, _, _, _, hrecords'⟩ := hreads'.valid_iff.mp ⟨hvalid', hholds'⟩
    rw [← List.take_append_drop 24 f.content, ← List.take_append_drop 24 g.content, hheader,
      hrecords, hrecords']
  · intro hcontent
    obtain ⟨ps, hholds⟩ := hreads.holds_of_valid hvalid
    have hlayout := hreads.valid_iff.mp ⟨hvalid, hholds⟩
    rw [hcontent] at hlayout
    obtain ⟨_, hholds'⟩ := hreads'.valid_iff.mpr hlayout
    exact ⟨hholds.1.trans hholds'.1.symm, fun i => (hholds.2 i).trans (hholds'.2 i).symm⟩

end PcapT

def openedGzip : PcapT :=
  construct .little storedZlib (opening sampleGzip) "sample.pcap.gz" .autodetect true false

theorem packets_determine_content_sample :
    (openedGzip.packetCount = openedSample.packetCount ∧
        ∀ i, openedGzip.packetAt .little i = openedSample.packetAt .little i) ↔
      openedGzip.file.content = openedSample.file.content :=
  PcapT.packets_determine_content ⟨_, _, _, _, _, _, rfl⟩ ⟨_, _, _, _, _, _, rfl⟩
    (by decide +kernel) (by decide +kernel) (by decide +kernel)

def samplePackets : List PacketT :=
  sampleCapture.records.map fun r => ⟨r.body, r.pktHeader .standard⟩

theorem construct_valid_iff_sample :
    openedSample.valid = true ∧ openedSample.Holds .little samplePackets ↔
      samplePackets ≠ [] ∧ ∃ swapped variant,
        headed .little (sampleFile .little).content = some (swapped, variant) ∧
        (∀ p ∈ samplePackets, p.Complete variant) ∧
        (sampleFile .little).content = (sampleFile .little).content.take 24 ++
          samplePackets.flatMap (PacketT.recordBytes .little) :=
  PcapT.construct_valid_iff .little storedZlib (opening (sampleFile .little)) "sample.pcap"
    .autodetect true false rfl (by decide) samplePackets

end LibNokogiri.Pcap
