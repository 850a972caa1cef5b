import LibNokogiri.Internal.StoredGzip

/-! # What a copy keeps

Whatever goes wrong in a copy, the bytes that reach the output are a prefix of
the stream, in order and without gaps. The byte count that comes with them is a
32-bit integer, and is right as long as the stream is shorter than 2 GiB.
-/

namespace LibNokogiri.Internal

open ByteCodec Framing Loop

theorem toInt_ofNat_of_lt {n : Nat} (h : n < 2 ^ 31) : (Int32.ofNat n).toInt = n :=
  Int32.toInt_ofNat_of_lt h

section DecompressTo

variable {z : Zlib} {self : GzFileT z} {h : z.Handle} {s : Bytes} {file : Fd} {f : RegularFile}
  {pos : Nat} {writes : Nat → WriteOutcome}

/-- A prefix of the stream is appended. The result is -1 exactly when a read or
a write of the complete copy fails, and otherwise the whole stream has been
appended and its length is returned. -/
theorem GzFileT.decompressTo_copies (writes : Nat → WriteOutcome) (hgz : self.gzFile = some h)
    (hstr : z.Streams h s) (hsize : s.length < 2 ^ 31) (hfd : file.fd = some ⟨f, pos⟩)
    (hpos : pos ≤ f.size) :
    let result := self.decompressTo file writes
    ∃ copied, copied <+: s ∧ FdT.Appended file f pos copied result.2.file ∧
      (result.1 = -1 ↔ ¬ Undisturbed z h writes 0 pos s.length) ∧
      (result.1 ≠ -1 → copied = s ∧ result.1.toInt = s.length) := by
  intro result
  obtain ⟨⟨copied, hcopied, happended, hall⟩, htotal, hfailed⟩ :=
    decompressTo_result writes hgz hstr hfd hpos
  have hcount : Undisturbed z h writes 0 pos s.length → result.1.toInt = s.length := by
    intro hfine
    rw [show result.1 = Int32.ofNat s.length from htotal hfine, toInt_ofNat_of_lt hsize]
  have hneg : (-1 : Int32).toInt = -1 := by decide
  have hiff : result.1 = -1 ↔ ¬ Undisturbed z h writes 0 pos s.length := by
    refine ⟨fun hret hfine => ?_, hfailed⟩
    have hlen := hcount hfine
    rw [hret, hneg] at hlen
    omega
  refine ⟨copied, hcopied, happended, hiff, fun hret => ?_⟩
  have hfine := Classical.not_not.mp (mt hiff.mpr hret)
  exact ⟨hall hfine, hcount hfine⟩

def smallGzip : RegularFile where
  content := storedGzip [1, 2, 3] 0x55BC801D
  size_lt := by decide

def twoBytes : RegularFile where
  content := [7, 7]
  size_lt := by decide

def secondFails : Nat → WriteOutcome := fun n => if n = 1 then .failed else .accepted blockSize

theorem decompressTo_copies_sample :
    let result := (GzFileT.ofFd storedZlib { fd := some ⟨smallGzip, 0⟩ }).1.decompressTo
      { fd := some ⟨twoBytes, 2⟩ } secondFails
    ∃ copied, copied <+: [1, 2, 3] ∧
      FdT.Appended { fd := some ⟨twoBytes, 2⟩ } twoBytes 2 copied result.2.file ∧
      (result.1 = -1 ↔
        ¬ Undisturbed storedZlib (openStored smallGzip.content) secondFails 0 2 3) ∧
      (result.1 ≠ -1 → copied = [1, 2, 3] ∧ result.1.toInt = 3) :=
  GzFileT.decompressTo_copies secondFails rfl
    (storedZlib_delivers (openStored smallGzip.content)).streams (by decide) rfl (by decide)

/-! ## The byte count -/

/-- The sum that the round is about to form is in the range of `int32_t`, with
whatever the read adds to it. -/
def SumInRange (t : Decompression z) : Prop :=
  ∀ bytes, (t.gz.gzread blockSize).1 = some bytes →
    0 ≤ t.decmpressed.toInt + bytes.length ∧ t.decmpressed.toInt + bytes.length < 2 ^ 31

/-- The call returns the number of bytes written, no sum on the way there leaves
the range of its type, and the result is not the failure value. -/
structure CountsBytes (gz : GzFileT z) (file : Fd) (writes : Nat → WriteOutcome) : Prop where
  total : (gz.decompressTo file writes).1.toInt =
    (gz.decompressTo file writes).2.file.tell - file.tell
  nonneg : 0 ≤ (gz.decompressTo file writes).1.toInt
  sums : ∀ t, Visits (Decompression.copyBlock writes) (Decompression.start gz file) t →
    SumInRange t
  accepted : (gz.decompressTo file writes).1 ≠ -1

def PartWay (file : Fd) (f : RegularFile) (pos : Nat) (s : Bytes) (t : Decompression z) : Prop :=
  ∃ handle copied rest, copied ++ rest = s ∧ t.Copying file f pos handle copied rest

theorem copyBlock_partWay (writes : Nat → WriteOutcome) (t : Decompression z)
    (ht : PartWay file f pos s t) :
    (t.copyBlock writes).All (PartWay file f pos s) fun _ => True := by
  obtain ⟨handle, copied, rest, hsplit, hcopying⟩ := ht
  by_cases hread : (z.gzread handle blockSize).1 = none
  · obtain ⟨_, hstop, _⟩ := Decompression.copyBlock_error writes hcopying.toStreaming hread
    rw [hstop]
    trivial
  by_cases hfull : blockSize ≤ rest.length
  · rcases Decompression.copyBlock_block writes hcopying hread hfull with
      ⟨_, _, next, hmore, hnext, _⟩ | ⟨_, _, _, hstop, _, _⟩
    · rw [hmore]
      refine ⟨_, _, _, ?_, hnext⟩
      rw [List.append_assoc, List.take_append_drop, hsplit]
    · rw [hstop]
      trivial
  · obtain ⟨_, hstop, _⟩ :=
      Decompression.copyBlock_last writes hcopying.toStreaming hread (Nat.not_le.mp hfull)
    rw [hstop]
    trivial

theorem PartWay.sumInRange {t : Decompression z} (ht : PartWay file f pos s t)
    (hsize : s.length < 2 ^ 31) : SumInRange t := by
  obtain ⟨handle, copied, rest, rfl, hcopying⟩ := ht
  intro bytes hbytes
  rw [hcopying.gzread_eq] at hbytes
  have hread : (z.gzread handle blockSize).1 ≠ none := by
    rw [hbytes]
    exact Option.some_ne_none bytes
  have htake := hcopying.streams.read Decompression.blockSize_lt hread
  have hlen : bytes.length ≤ rest.length := by
    rw [hbytes] at htake
    rw [Option.some.inj htake]
    exact List.length_take_le' blockSize rest
  rw [List.length_append] at hsize
  rw [hcopying.count, toInt_ofNat_of_lt (by omega)]
  omega

/-- With nothing failing, the byte count is right exactly for streams shorter
than 2 GiB. -/
theorem countsBytes_iff (hgz : self.gzFile = some h) (hdel : z.Delivers h s)
    (hfd : file.fd = some ⟨f, pos⟩) (hpos : pos ≤ f.size) (hroom : pos + s.length < offLimit)
    (hstored : AllStored writes 0 (chunks s.length)) :
    CountsBytes self file writes ↔ s.length < 2 ^ 31 := by
  have hfine := (hdel.undisturbed_iff hroom).mpr hstored
  obtain ⟨⟨copied, _, happended, hall⟩, htotal, _⟩ :=
    GzFileT.decompressTo_result writes hgz hdel.streams hfd hpos
  have hret : (self.decompressTo file writes).1 = Int32.ofNat s.length := htotal hfine
  have hwritten : (self.decompressTo file writes).2.file.tell - file.tell = s.length := by
    obtain ⟨_, g, _, hfile⟩ := happended
    rw [hall hfine, List.nil_append] at hfile
    rw [hfile, FdT.tell_eq hfd, FdT.tell_eq rfl]
    omega
  constructor
  · intro hcounts
    have hlt := (self.decompressTo file writes).1.toInt_lt
    rw [hcounts.total, hwritten] at hlt
    omega
  · intro hsize
    have hint : (self.decompressTo file writes).1.toInt = s.length := by
      rw [hret, toInt_ofNat_of_lt hsize]
    refine ⟨by rw [hint, hwritten], by omega, ?_, ?_⟩
    · intro t hvisits
      have hstart : PartWay file f pos s (Decompression.start self file) :=
        ⟨h, [], s, rfl, Decompression.copying_start hgz hdel.streams hfd hpos⟩
      exact (hvisits.invariant (copyBlock_partWay writes) hstart).sumInRange hsize
    · rw [hret, ne_eq, ofNat_eq_neg_one]
      omega

theorem countsBytes_sample :
    CountsBytes (GzFileT.ofFd storedZlib { fd := some ⟨smallGzip, 0⟩ }).1
        { fd := some ⟨twoBytes, 2⟩ } (fun _ => .accepted blockSize) ↔ [1, 2, 3].length < 2 ^ 31 :=
  countsBytes_iff rfl (storedZlib_delivers (openStored smallGzip.content)) rfl (by decide)
    (by decide) (by decide)

end DecompressTo

/-! ## A stream that is too long -/

theorem chunks_le {size len : Nat} (h : len ∈ chunks size) : len ≤ blockSize := by
  rcases List.mem_append.mp h with h | h
  · exact Nat.le_of_eq (List.eq_of_mem_replicate h)
  · rw [List.eq_of_mem_replicate h]
    decide

theorem allStored_accepted {count : Nat} {lens : List Nat} (n : Nat)
    (h : ∀ len ∈ lens, len ≤ count) : AllStored (fun _ => .accepted count) n lens := by
  induction lens generalizing n with
  | nil => trivial
  | cons len lens ih =>
      rw [allStored_cons]
      have hfirst : len ≤ count := h len List.mem_cons_self
      exact ⟨decide_eq_true hfirst, ih (n + 1) fun l hl => h l (List.mem_cons_of_mem _ hl)⟩

def hugeGzip : RegularFile where
  content := (List.replicate 65537 (storedGzip (List.replicate 65535 0) 0x953675C7)).flatten
  size_lt := by
    rw [replicate_storedGzip_length, List.length_replicate]
    decide

theorem hugeGzip_opened :
    (GzFileT.ofFd membersZlib { fd := some ⟨hugeGzip, 0⟩ }).1.gzFile =
      some ({ data := List.replicate (2 ^ 32 - 1) 0, cutOff := false } : StoredHandle) := by
  have hdata : (List.replicate 65535 (0 : UInt8)).length < 2 ^ 16 := by
    rw [List.length_replicate]
    decide
  have hcount : 65537 * 65535 = 2 ^ 32 - 1 := by decide
  have hopen := membersZlib_gzdopen hugeGzip 0x953675C7 hdata rfl
  rw [List.flatten_replicate_replicate, hcount] at hopen
  exact hopen

/-- A complete stream of 2^32 - 1 bytes is copied without any failure, and the
call reports failure. -/
theorem countsBytes_fails :
    let gz := (GzFileT.ofFd membersZlib { fd := some ⟨hugeGzip, 0⟩ }).1
    let file : Fd := { fd := some ⟨RegularFile.empty, 0⟩ }
    let writes := fun _ => WriteOutcome.accepted blockSize
    (∃ h, gz.gzFile = some h ∧ membersZlib.Delivers h (List.replicate (2 ^ 32 - 1) 0)) ∧
      AllStored writes 0 (chunks (2 ^ 32 - 1)) ∧
      (gz.decompressTo file writes).1 = -1 ∧ ¬ CountsBytes gz file writes := by
  intro gz file writes
  generalize hs : List.replicate (2 ^ 32 - 1) (0 : UInt8) = s
  have hlen : s.length = 2 ^ 32 - 1 := by rw [← hs, List.length_replicate]
  have hgz : gz.gzFile = some ({ data := s, cutOff := false } : StoredHandle) := by
    rw [← hs]
    exact hugeGzip_opened
  have hdel : membersZlib.Delivers ({ data := s, cutOff := false } : StoredHandle) s :=
    membersZlib_delivers { data := s, cutOff := false }
  have hfd : file.fd = some ⟨RegularFile.empty, 0⟩ := rfl
  have hstored : AllStored writes 0 (chunks s.length) :=
    allStored_accepted 0 fun _ => chunks_le
  have hret : (gz.decompressTo file writes).1 = -1 := by
    have hsize : s.length < offLimit := by
      rw [hlen]
      decide
    have htotal := ((GzFileT.decompressTo_delivers writes hgz hdel hfd hsize).1 hstored).1
    rw [htotal]
    exact (ofNat_eq_neg_one _).mpr (by rw [hlen]; decide)
  refine ⟨⟨_, hgz, hdel⟩, ?_, hret, fun hcounts => hcounts.accepted hret⟩
  rw [← hlen]
  exact hstored

end LibNokogiri.Internal
