import LibNokogiri.Pcap.Members
import LibNokogiri.Pcap.Reencoding

/-! # The capture reader of the tests

The command prints what the file header says and walks over all packets. Its
exit status sums the container up: it is 0 for a file header that is followed
by records with bodies and by nothing else, and 1 for everything else.
-/

namespace LibNokogiri.PcapTest

open ByteCodec Internal Loop Pcap PcapT

structure Report where
  out : List String
  err : List String
  status : Int32
deriving DecidableEq

/-- A path as a stream prints it: quoted, quotes and backslashes escaped. -/
def quoted (file : String) : String :=
  let quote := Char.ofNat 0x22
  let escape := Char.ofNat 0x5C
  let escaped := file.toList.flatMap fun c => if c = quote ∨ c = escape then [escape, c] else [c]
  String.ofList (quote :: escaped ++ [quote])

/-- One round of the loop over the packets: the iterator is compared, read and
moved on. Reading behind the last packet has no defined outcome. -/
def visit (host : Order) (last : BiIterator) (s : PcapT × BiIterator) :
    Outcome (PcapT × BiIterator) (Option Int32) :=
  if s.2.ne last then
    match s.2.deref (s.1.accessor host) with
    | none => .stop none
    | some (none, _) => .stop (some 1)
    | some (some packet, capture) =>
        if packet.length = 0 then .stop (some 1) else .more (capture, s.2.increment)
  else .stop (some 0)

def summary (capture : PcapT) : List String :=
  let hdr := capture.header
  ["File Type: " ++ enumName pcapVariantS hdr.variant ++ "\n",
   "Compression: " ++ enumName captureCompressionS capture.compression ++ "\n",
   "Packet count: " ++ toString capture.packetCount ++ "\n",
   "Version: " ++ toString hdr.version.majorVersion ++ toString hdr.version.minorVersion ++ "\n",
   "TZ Offset: " ++ toString hdr.tzOffset ++ "\n",
   "TS Accuracy: " ++ toString hdr.timestampFigs ++ "\n",
   "Max Packet Len: " ++ toString hdr.pcklenMax ++ "\n",
   "Link Type: " ++ enumName linkTypeS hdr.network ++ "\n"]

/-- `read`; `found` says whether there is a regular file of this name, which
only the first message depends on. None if the loop has no defined outcome. -/
def read (host : Order) (z : Zlib) (os : Opens) (found : Bool) (file : String) : Option Report :=
  let missing := if found then [] else ["Unable to find file " ++ quoted file ++ "\n"]
  let capture := construct host z os file .autodetect true false
  if !capture.valid then
    some { out := [], err := missing ++ ["Capture file " ++ quoted file ++ " is not valid \n"],
           status := 1 }
  else
    match run (visit host capture.end) (capture.packetCount + 1) (capture, capture.begin) with
    | some (some status) => some { out := summary capture, err := missing, status }
    | _ => none

/-! ## The loop over the packets -/

section Loop

variable {host : Order} {origin : PcapT}

def filled (packet : Option PacketT) : Bool :=
  match packet with
  | some packet => packet.length != 0
  | none => false

def allFilled (host : Order) (capture : PcapT) : Bool :=
  (List.range capture.packetCount).all fun i => filled (capture.packetAt host i)

theorem allFilled_iff (host : Order) (capture : PcapT) :
    allFilled host capture = true ↔
      ∀ i, i < capture.packetCount → filled (capture.packetAt host i) = true := by
  simp only [allFilled, List.all_eq_true, List.mem_range]

structure Reaches (host : Order) (origin : PcapT) (k : Nat) (s : PcapT × BiIterator) : Prop where
  alike : origin.Alike s.1
  walks : origin.Walks s.2
  position : s.2.current = k
  before : ∀ i, i < k → filled (origin.packetAt host i) = true

variable {k : Nat} {s : PcapT × BiIterator}

theorem Reaches.ne_end (h : Reaches host origin k s) :
    s.2.ne origin.end = true ↔ k ≠ origin.packetCount := by
  have hend : origin.end.current = origin.packetCount := rfl
  rw [BiIterator.ne, BiIterator.eq, h.position, hend]
  simp

theorem Reaches.visit (h : Reaches host origin k s) (hoffsets : OffsetsBelow origin.packets)
    (hk : k < origin.packetCount) :
    (filled (origin.packetAt host k) = true ∧ ∃ next,
        PcapTest.visit host origin.end s = .more next ∧ Reaches host origin (k + 1) next) ∨
      filled (origin.packetAt host k) = false ∧
        PcapTest.visit host origin.end s = .stop (some 1) := by
  obtain ⟨capture, hread, halike⟩ := h.alike.accessor host hoffsets hk
  have hround : s.2.ne origin.end = true := h.ne_end.mpr (Nat.ne_of_lt hk)
  have hlast : s.2.last = origin.packetCount := h.walks.2
  rw [PcapTest.visit, if_pos hround, BiIterator.deref, h.position, hread]
  cases hpacket : origin.packetAt host k with
  | none => exact .inr ⟨rfl, rfl⟩
  | some packet =>
      by_cases hlen : packet.length = 0
      · right
        exact ⟨by simp [filled, hlen], if_pos hlen⟩
      · left
        have hfilled : filled (some packet) = true := by simpa [filled] using hlen
        refine ⟨hfilled, _, if_neg hlen, halike, h.walks.increment, ?_, ?_⟩
        · rw [s.2.increment_current, h.position, hlast]
          omega
        · intro i hi
          rcases Nat.lt_succ_iff_lt_or_eq.mp hi with hlt | rfl
          · exact h.before i hlt
          · rwa [hpacket]

theorem run_visit (host : Order) (hoffsets : OffsetsBelow origin.packets) :
    run (visit host origin.end) (origin.packetCount + 1) (origin, origin.begin) =
      some (some (if allFilled host origin then 0 else 1)) := by
  have hended : ∃ b, run (visit host origin.end) (origin.packetCount + 1) (origin, origin.begin) =
      some b ∧ b = some (if allFilled host origin then 0 else 1) := by
    apply run_search (I := Reaches host origin)
    · intro k s hk hs
      rcases hs.visit hoffsets hk with ⟨_, next, hmore, hnext⟩ | ⟨hempty, hstop⟩
      · exact .inl ⟨next, hmore, hnext⟩
      · have hsome : ¬ allFilled host origin = true := by
          rw [allFilled_iff]
          intro hall
          rw [hall k hk] at hempty
          cases hempty
        exact .inr ⟨some 1, hstop, by rw [if_neg hsome]⟩
    · intro s hs
      have hdone : ¬ s.2.ne origin.end = true := by
        rw [hs.ne_end]
        exact not_not_intro rfl
      refine ⟨some 0, if_neg hdone, ?_⟩
      rw [if_pos ((allFilled_iff host origin).mpr hs.before)]
    · exact ⟨⟨rfl, rfl, rfl⟩, origin.walks_begin, rfl, fun i hi => absurd hi (Nat.not_lt_zero i)⟩
  obtain ⟨b, hrun, rfl⟩ := hended
  exact hrun

end Loop

/-! ## What the command says of a file -/

section Read

variable (host : Order) (z : Zlib) (os : Opens) (found : Bool) (file : String)

def report (capture : PcapT) : Report :=
  let missing := if found then [] else ["Unable to find file " ++ quoted file ++ "\n"]
  if capture.valid then
    { out := summary capture, err := missing, status := if allFilled host capture then 0 else 1 }
  else
    { out := [], err := missing ++ ["Capture file " ++ quoted file ++ " is not valid \n"],
      status := 1 }

theorem read_eq : read host z os found file =
    some (report host found file (construct host z os file .autodetect true false)) := by
  have hoffsets := construct_offsetsBelow host z os file .autodetect true false
  rw [read, report]
  generalize construct host z os file .autodetect true false = capture at hoffsets
  cases hvalid : capture.valid with
  | false => rfl
  | true =>
      rw [run_visit host hoffsets]
      rfl

theorem report_status (capture : PcapT) :
    (report host found file capture).status =
      if capture.valid = true ∧ allFilled host capture = true then 0 else 1 := by
  rw [report]
  cases capture.valid <;> simp

theorem allFilled_holds {capture : PcapT} {ps : List PacketT} (h : capture.Holds host ps) :
    allFilled host capture = true ↔ ∀ p ∈ ps, p.rawData ≠ [] := by
  rw [allFilled_iff, h.1]
  constructor
  · intro hall p hp
    obtain ⟨i, hi, rfl⟩ := List.mem_iff_getElem.mp hp
    have hfilled := hall i hi
    rw [h.2 i, List.getElem?_eq_getElem hi] at hfilled
    intro hnil
    simp [filled, PacketT.length, hnil] at hfilled
  · intro hall i hi
    have hne := hall ps[i] (List.getElem_mem hi)
    rw [h.2 i, List.getElem?_eq_getElem hi]
    simpa [filled, PacketT.length] using hne

/-- The exit status of the command on a plain file: 0 for a file header of either
byte order followed by records with bodies in the host's, at least one, and by
nothing else; 1 for all others. -/
theorem read_status {f : RegularFile} (hopen : os.capture = some f)
    (hplain : f.content.take 2 ≠ gzipHeader) :
    ∃ r, read host z os found file = some r ∧ (r.status = 0 ∨ r.status = 1) ∧
      (r.status = 0 ↔ ∃ ps, ps ≠ [] ∧ (∀ p ∈ ps, p.rawData ≠ []) ∧
        ∃ swapped variant, headed host f.content = some (swapped, variant) ∧
          (∀ p ∈ ps, p.Complete variant) ∧
          f.content = f.content.take 24 ++ ps.flatMap (PacketT.recordBytes host)) := by
  refine ⟨_, read_eq host z os found file, ?_⟩
  have hsettled : settled .autodetect f.content ≠ .compressed := sniff_other hplain
  have hreads : (construct host z os file .autodetect true false).Reads host f := by
    rw [construct_plain host z file .autodetect true false hopen hsettled]
    exact parse_reads (opened_unread .autodetect _ f file true false)
  generalize construct host z os file .autodetect true false = capture at hreads
  rw [report_status]
  constructor
  · split
    · exact .inl rfl
    · exact .inr rfl
  · have hzero : ((if capture.valid = true ∧ allFilled host capture = true then 0 else 1 : Int32) =
        0) ↔ capture.valid = true ∧ allFilled host capture = true := by
      split
      · rename_i h
        exact iff_of_true rfl h
      · rename_i h
        exact iff_of_false (by decide) h
    rw [hzero]
    simp only [eq_take_append_iff]
    constructor
    · rintro ⟨hvalid, hfilled⟩
      obtain ⟨ps, hholds⟩ := hreads.holds_of_valid hvalid
      obtain ⟨hne, hlayout⟩ := hreads.valid_iff.mp ⟨hvalid, hholds⟩
      exact ⟨ps, hne, (allFilled_holds host hholds).mp hfilled, hlayout⟩
    · rintro ⟨ps, hne, hfilled, hlayout⟩
      obtain ⟨hvalid, hholds⟩ := hreads.valid_iff.mpr ⟨hne, hlayout⟩
      exact ⟨hvalid, (allFilled_holds host hholds).mpr hfilled⟩

end Read

theorem read_status_sample :
    ∃ r, read .little storedZlib (opening (sampleFile .little)) true "sample.pcap" = some r ∧
      (r.status = 0 ∨ r.status = 1) ∧
      (r.status = 0 ↔ ∃ ps, ps ≠ [] ∧ (∀ p ∈ ps, p.rawData ≠ []) ∧
        ∃ swapped variant, headed .little (sampleFile .little).content = some (swapped, variant) ∧
          (∀ p ∈ ps, p.Complete variant) ∧
          (sampleFile .little).content = (sampleFile .little).content.take 24 ++
            ps.flatMap (PacketT.recordBytes .little)) :=
  read_status .little storedZlib (opening (sampleFile .little)) true "sample.pcap" rfl (by decide)

/-! ## Compressed captures -/

section Gzip

variable (host : Order) (z : Zlib) (os : Opens) (found : Bool) (file : String)

theorem report_agree {a b : PcapT} (h : Agree host a b) (hcompression : a.compression = .compressed) :
    report host found file a =
      { report host found file b with
        out := (report host found file b).out.set 1 "Compression: Compressed\n" } := by
  obtain ⟨hvalid, hheader, _, hcount, _, hcalls⟩ := h
  have hfilled : allFilled host a = allFilled host b := by
    rw [allFilled, allFilled, hcount]
    exact congrArg _ (funext fun i => congrArg filled (hcalls [] a b rfl rfl i))
  have hsummary : summary a = (summary b).set 1 "Compression: Compressed\n" := by
    simp only [summary, hheader, hcount, hcompression]
    rfl
  rw [report, report, hvalid, hfilled, hsummary]
  cases b.valid <;> rfl

/-- The command says the same of a complete gzip file as of the file that was
compressed, except that it is compressed. -/
theorem read_gzip (os' : Opens) (gz plain : RegularFile) {h : z.Handle}
    (hgzip : gz.content.take 2 = gzipHeader) (hplain : plain.content.take 2 ≠ gzipHeader)
    (hsize : plain.content.length < 2 ^ 31) (hopen : z.gzdopen ⟨gz, 0⟩ = some h)
    (hdel : z.Delivers h plain.content) (hfresh : os.temporary = some RegularFile.empty)
    (hstored : AllStored os.writes 0 (chunks plain.content.length)) :
    ∃ r, read host z { os' with capture := some plain } found file = some r ∧
      read host z { os with capture := some gz } found file =
        some { r with out := r.out.set 1 "Compression: Compressed\n" } := by
  refine ⟨_, read_eq host z _ found file, ?_⟩
  rw [read_eq]
  have hret : (copyOf z os file .autodetect gz).1 ≠ -1 := by
    have hstoring : os.storing = os.writes := by simp only [Opens.storing, hfresh]
    rw [(copyOf_result file .autodetect hopen hdel plain.size_lt).1 (by rwa [hstoring])]
    intro hneg
    rw [ofNat_eq_neg_one] at hneg
    omega
  obtain ⟨copied, hfd, hparse, _⟩ :=
    fromCopy_copyOf file .autodetect host true false plain hopen hdel hfresh hstored hret
  have hunread : (setUp (copied.placedAt plain 0) .compressed true false).Unread plain := by
    refine ⟨rfl, .inr rfl, ?_, rfl, rfl, rfl⟩
    intro hpos
    exact decide_eq_false (by omega)
  rw [construct_copyOf file .autodetect host true false (sniff_gzip hgzip), hparse,
    construct_plain host z file .autodetect true false rfl (sniff_other hplain)]
  apply congrArg some
  apply report_agree
  · exact parse_agree hunread (opened_unread .autodetect _ plain file true false) rfl
  · exact parse_compression hunread

end Gzip

theorem read_gzip_sample :
    ∃ r, read .little storedZlib (opening (sampleFile .little)) true "sample.pcap.gz" = some r ∧
      read .little storedZlib (opening sampleGzip) true "sample.pcap.gz" =
        some { r with out := r.out.set 1 "Compression: Compressed\n" } :=
  read_gzip .little storedZlib (opening sampleGzip) true "sample.pcap.gz"
    (opening (sampleFile .little)) sampleGzip (sampleFile .little) (by decide) (by decide)
    (by decide) rfl (storedZlib_delivers (openStored sampleGzip.content)) rfl (by decide)

end LibNokogiri.PcapTest
