import LibNokogiri.Pcap.RoundTrip

/-! # Compressed captures

A gzip file that zlib decompresses completely is opened to the same capture as
the plain file with the decompressed bytes. A gzip file that ends in the middle
of its stream is opened to the capture of the bytes before the cut: the error
state in which zlib reports the missing end is never consulted.
-/

namespace LibNokogiri.Pcap

open ByteCodec Framing Internal PcapT

/-! ## The copy -/

def PcapT.Opens.storing (os : Opens) : Nat → WriteOutcome :=
  match os.temporary with
  | none => fun _ => .failed
  | some _ => os.writes

theorem allStored_failed {lens : List Nat} (h : AllStored (fun _ => .failed) 0 lens) :
    lens = [] := by
  cases lens with
  | nil => rfl
  | cons len lens => cases h.1

theorem chunks_eq_nil {size : Nat} (h : chunks size = []) : size = 0 := by
  have hpos : 0 < blockSize := by decide
  unfold chunks at h
  obtain ⟨hblocks, hbytes⟩ := List.append_eq_nil_iff.mp h
  have hdiv : size / blockSize = 0 := by simpa using congrArg List.length hblocks
  have hmod : size % blockSize = 0 := by simpa using congrArg List.length hbytes
  rw [← Nat.div_add_mod size blockSize, hdiv, hmod]
  rfl

section Copy

variable (z : Zlib) (os : Opens) (file : String) (compression : CaptureCompressionT)
  (gz : RegularFile)

/-- The run of `decompress_to` in the constructor: its result and the locals
and files it leaves. -/
def copyOf : Int32 × Decompression z :=
  (GzFileT.ofFd z (opened compression gz file)).1.decompressTo
    (openFile os.temporary os.temporaryName true) os.writes

variable {z os gz} {h : z.Handle} {b : Bytes}

theorem ofFd_handle (hopen : z.gzdopen ⟨gz, 0⟩ = some h) :
    (GzFileT.ofFd z (opened compression gz file)).1.gzFile = some h := by
  simp only [GzFileT.ofFd, FdT.moveConstruct_eq, opened_fd, Option.bind_some, hopen]

theorem construct_copyOf (host : Order) (readOnly prefetch : Bool)
    (hmode : settled compression gz.content = .compressed) :
    construct host z { os with capture := some gz } file compression readOnly prefetch =
      fromCopy host (copyOf z os file compression gz) readOnly prefetch :=
  construct_gzip host z file compression readOnly prefetch rfl hmode

theorem copyOf_result (hopen : z.gzdopen ⟨gz, 0⟩ = some h) (hdel : z.Delivers h b)
    (hsize : b.length < offLimit) :
    (AllStored os.storing 0 (chunks b.length) →
        (copyOf z os file compression gz).1 = Int32.ofNat b.length) ∧
      (¬ AllStored os.storing 0 (chunks b.length) → (copyOf z os file compression gz).1 = -1) := by
  have hgz := ofFd_handle file compression hopen
  unfold copyOf
  cases htemp : os.temporary with
  | none =>
      have hclosed : (openFile none os.temporaryName true).fd = none := rfl
      have hstoring : os.storing = fun _ => .failed := by simp only [Opens.storing, htemp]
      have hret := GzFileT.decompressTo_closed os.writes hgz hdel hclosed
      rw [hret, hstoring]
      constructor
      · intro hstored
        have hlen := chunks_eq_nil (allStored_failed hstored)
        rw [if_pos (List.length_eq_zero_iff.mp hlen), hlen]
        rfl
      · intro hrefused
        rw [if_neg]
        intro hnil
        rw [hnil] at hrefused
        exact hrefused trivial
  | some temporary =>
      have hstoring : os.storing = os.writes := by simp only [Opens.storing, htemp]
      have hcopy := GzFileT.decompressTo_delivers os.writes hgz hdel
        (show (openFile (some temporary) os.temporaryName true).fd = some ⟨temporary, 0⟩ from rfl)
        hsize
      rw [hstoring]
      exact ⟨fun hstored => (hcopy.1 hstored).1, hcopy.2⟩

theorem fromCopy_copyOf (host : Order) (readOnly prefetch : Bool) (f : RegularFile)
    (hopen : z.gzdopen ⟨gz, 0⟩ = some h) (hdel : z.Delivers h f.content)
    (hfresh : os.temporary = some RegularFile.empty)
    (hstored : AllStored os.writes 0 (chunks f.content.length))
    (hret : (copyOf z os file compression gz).1 ≠ -1) :
    ∃ copied : Fd, copied.fd = some ⟨f, f.size⟩ ∧
      fromCopy host (copyOf z os file compression gz) readOnly prefetch =
        (setUp (copied.placedAt f 0) .compressed readOnly prefetch).parse host ∧
      (fromCopy host (copyOf z os file compression gz) readOnly prefetch).Reads host f := by
  have hgz := ofFd_handle file compression hopen
  obtain ⟨_, g, hcontent, hfile⟩ := ((GzFileT.decompressTo_delivers os.writes hgz hdel
    (show (openFile os.temporary os.temporaryName true).fd = some ⟨RegularFile.empty, 0⟩ by
      rw [hfresh]; rfl) f.size_lt).1 hstored).2
  have hg : g = f := by
    cases g
    cases f
    rw [overwrite_of_le (Nat.zero_le _)] at hcontent
    simpa [RegularFile.empty] using hcontent
  subst hg
  rw [Nat.zero_add] at hfile
  have hfd : (copyOf z os file compression gz).2.file.fd = some ⟨g, g.size⟩ :=
    congrArg FdT.fd hfile
  have hlen : (copyOf z os file compression gz).2.file.LengthFresh g :=
    .inl (congrArg FdT.length hfile)
  obtain ⟨hparse, hparsed⟩ := fromCopy_parsed readOnly prefetch hret hfd hlen
  exact ⟨_, hfd, hparse, hparsed.reads⟩

end Copy

/-! ## Complete gzip files -/

/-- The captures agree on everything an accessor shows, and still do so when the
same packets have been read from both. -/
def Agree (host : Order) (a b : PcapT) : Prop :=
  a.valid = b.valid ∧ a.header = b.header ∧ a.needsSwapping = b.needsSwapping ∧
    a.packetCount = b.packetCount ∧
    a.packets.map PacketStorageT.entry = b.packets.map PacketStorageT.entry ∧
    ∀ calls a' b', a.afterCalls host calls = some a' → b.afterCalls host calls = some b' →
      ∀ i, a'.packetAt host i = b'.packetAt host i

theorem parse_agree {host : Order} {f : RegularFile} {a b : PcapT} (ha : a.Unread f)
    (hb : b.Unread f) (hheader : a.header = b.header) : Agree host (a.parse host) (b.parse host) := by
  have hreads : (a.parse host).Reads host f := parse_reads ha
  have hreads' : (b.parse host).Reads host f := parse_reads hb
  have hpackets := hreads.packets.trans hreads'.packets.symm
  refine ⟨?_, ?_, ?_, ?_, ?_, ?_⟩
  · rw [hreads.valid, hreads'.valid]
  · cases hheaded : headed host f.content with
    | none =>
        rw [parse_unheaded ha hheaded, parse_unheaded hb hheaded]
        apply readHeader_header host
        exact ⟨ha.fd.trans hb.fd.symm, hheader, ha.needsSwapping.trans hb.needsSwapping.symm⟩
    | some kind =>
        rw [hreads.header kind.1 kind.2 hheaded, hreads'.header kind.1 kind.2 hheaded]
  · rw [hreads.needsSwapping, hreads'.needsSwapping]
  · rw [packetCount, packetCount, hpackets]
  · rw [hpackets]
  · intro calls a' b' ha' hb' i
    rw [hreads.packetAt_afterCalls ha', hreads'.packetAt_afterCalls hb']
    cases hheaded : headed host f.content with
    | none =>
        have hindex : indexOf host f.content = ([], false) := by simp only [indexOf, hheaded]
        rw [PcapT.packetAt_eq host hreads.onFile hreads.offsetsBelow,
          PcapT.packetAt_eq host hreads'.onFile hreads'.offsetsBelow, hreads.packets,
          hreads'.packets, hindex]
        rfl
    | some kind => rw [hreads.packetAt_eq hheaded, hreads'.packetAt_eq hheaded]

theorem sniff_gzip {content : Bytes} (h : content.take 2 = gzipHeader) :
    sniff content = .compressed := by
  have hlen : ¬ content.length < 2 := by
    have htake := congrArg List.length h
    rw [List.length_take] at htake
    have htwo : gzipHeader.length = 2 := rfl
    omega
  rw [sniff, if_neg hlen, if_pos h]

theorem sniff_other {content : Bytes} (h : content.take 2 ≠ gzipHeader) :
    sniff content ≠ .compressed := by
  unfold sniff
  split
  · decide
  · decide

/-- Opening a complete gzip file and opening its decompressed bytes give the
same capture, whatever these bytes are. -/
theorem construct_agree (host : Order) (z : Zlib) (os : Opens) (file : String)
    (readOnly prefetch : Bool) (gz plain : RegularFile) {h : z.Handle} (os' : Opens)
    (file' : String) (hgzip : gz.content.take 2 = gzipHeader)
    (hplain : plain.content.take 2 ≠ gzipHeader) (hsize : plain.content.length < 2 ^ 31)
    (hopen : z.gzdopen ⟨gz, 0⟩ = some h) (hdel : z.Delivers h plain.content)
    (hfresh : os.temporary = some RegularFile.empty)
    (hstored : AllStored os.writes 0 (chunks plain.content.length)) :
    Agree host
      (construct host z { os with capture := some gz } file .autodetect readOnly prefetch)
      (construct host z { os' with capture := some plain } file' .autodetect readOnly
        prefetch) := by
  have hret : (copyOf z os file .autodetect gz).1 ≠ -1 := by
    have hstoring : os.storing = os.writes := by simp only [Opens.storing, hfresh]
    rw [(copyOf_result file .autodetect hopen hdel plain.size_lt).1 (by rwa [hstoring])]
    intro hneg
    rw [ofNat_eq_neg_one] at hneg
    omega
  obtain ⟨copied, hfd, hparse, _⟩ :=
    fromCopy_copyOf file .autodetect host readOnly prefetch plain hopen hdel hfresh hstored hret
  rw [construct_copyOf file .autodetect host readOnly prefetch (sniff_gzip hgzip), hparse,
    construct_plain host z file' .autodetect readOnly prefetch rfl (sniff_other hplain)]
  apply parse_agree
  · refine ⟨rfl, .inr rfl, ?_, rfl, rfl, rfl⟩
    intro hpos
    exact decide_eq_false (by omega)
  · exact opened_unread .autodetect _ plain file' readOnly prefetch
  · rfl

def sampleGzip : RegularFile where
  content := storedGzip (sampleFile .little).content 0xEC90FA59
  size_lt := by decide

theorem construct_agree_sample :
    Agree .little
      (construct .little storedZlib (opening sampleGzip) "sample.pcap.gz" .autodetect true false)
      (construct .little storedZlib (opening (sampleFile .little)) "sample.pcap" .autodetect true
        false) :=
  construct_agree .little storedZlib (opening sampleGzip) "sample.pcap.gz" true false sampleGzip
    (sampleFile .little) (opening (sampleFile .little)) "sample.pcap" (by decide) (by decide)
    (by decide) rfl (storedZlib_delivers (openStored sampleGzip.content)) rfl (by decide)

/-! ## Gzip files that are cut off -/

def Detected (host : Order) (z : Zlib) (os : Opens) (file : String)
    (compression : CaptureCompressionT) (readOnly prefetch : Bool) (gz : RegularFile) : Prop :=
  (copyOf z os file compression gz).1 = -1 ∧
    (construct host z { os with capture := some gz } file compression readOnly prefetch).valid =
      false

/-- A cut-off file is noticed only where a write of the copy fails, or where the
32-bit total happens to be the failure value. -/
theorem detected_iff (host : Order) (z : Zlib) (os : Opens) (file : String)
    (compression : CaptureCompressionT) (readOnly prefetch : Bool) (gz : RegularFile)
    {h : z.Handle} {b p : Bytes} (hmode : settled compression gz.content = .compressed)
    (hopen : z.gzdopen ⟨gz, 0⟩ = some h) (hcut : z.CutOff h b p) (hb : b.length < offLimit) :
    Detected host z os file compression readOnly prefetch gz ↔
      ¬ AllStored os.storing 0 (chunks p.length) ∨ p.length % 2 ^ 32 = 2 ^ 32 - 1 := by
  have hp : p.length < offLimit := Nat.lt_of_le_of_lt hcut.front.length_le hb
  obtain ⟨hstored, hrefused⟩ := copyOf_result file compression hopen hcut.delivers hp
  have hret : (copyOf z os file compression gz).1 = -1 ↔
      ¬ AllStored os.storing 0 (chunks p.length) ∨ p.length % 2 ^ 32 = 2 ^ 32 - 1 := by
    by_cases hall : AllStored os.storing 0 (chunks p.length)
    · rw [hstored hall, ofNat_eq_neg_one]
      exact ⟨.inr, fun hor => hor.resolve_left (not_not_intro hall)⟩
    · exact ⟨fun _ => .inl hall, fun _ => hrefused hall⟩
  rw [← hret]
  constructor
  · exact fun hdetected => hdetected.1
  · intro hneg
    refine ⟨hneg, ?_⟩
    rw [construct_copyOf file compression host readOnly prefetch hmode, fromCopy, if_pos hneg]
    rfl

def cutGzip : RegularFile := sampleGzip.cut 55

theorem cutGzip_opened : openStored cutGzip.content =
    { data := (sampleFile .little).content.take 40, cutOff := true } :=
  openStored_take 0xEC90FA59 (by decide) 40

theorem cutGzip_cutOff :
    storedZlib.CutOff (openStored cutGzip.content) (sampleFile .little).content
      ((sampleFile .little).content.take 40) := by
  rw [cutGzip_opened]
  exact storedZlib_cutOff _ rfl (List.take_prefix 40 (sampleFile .little).content)

theorem detected_sample :
    Detected .little storedZlib (opening cutGzip) "sample.pcap.gz" .autodetect true false cutGzip ↔
      ¬ AllStored (opening cutGzip).storing 0
          (chunks ((sampleFile .little).content.take 40).length) ∨
        ((sampleFile .little).content.take 40).length % 2 ^ 32 = 2 ^ 32 - 1 :=
  detected_iff .little storedZlib (opening cutGzip) "sample.pcap.gz" .autodetect true false cutGzip
    (by decide) rfl cutGzip_cutOff (by decide)

/-- The sample cut off there is accepted with one of its two packets. -/
theorem detected_fails :
    storedZlib.CutOff (openStored cutGzip.content) (sampleFile .little).content
        ((sampleFile .little).content.take 40) ∧
      (construct .little storedZlib (opening cutGzip) "sample.pcap.gz" .autodetect true
        false).valid = true ∧
      (construct .little storedZlib (opening cutGzip) "sample.pcap.gz" .autodetect true
        false).packetCount = 1 ∧
      ¬ Detected .little storedZlib (opening cutGzip) "sample.pcap.gz" .autodetect true false
        cutGzip := by
  refine ⟨cutGzip_cutOff, by decide +kernel, by decide +kernel, ?_⟩
  rintro ⟨hret, _⟩
  revert hret
  decide +kernel

end LibNokogiri.Pcap
