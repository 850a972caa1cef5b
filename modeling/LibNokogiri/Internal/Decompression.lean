import LibNokogiri.Internal.Zlib

/-! # What `decompress_to` copies

The copy goes in whole blocks, then byte by byte. When zlib delivers a byte
string, the call returns its length exactly when every `write` of the copy
stores what it is given, and the output file then holds that byte string.
-/

namespace LibNokogiri.Internal

open ByteCodec Framing Loop

/-! ## What a handle delivers -/

def Zlib.after (z : Zlib) (h : z.Handle) : List Nat → z.Handle
  | [] => h
  | len :: lens => z.after (z.gzread h len).2 lens

/-- Every sequence of reads on the handle returns the bytes of `b` in order,
and a read comes back short only at their end. -/
def Zlib.Delivers (z : Zlib) (h : z.Handle) (b : Bytes) : Prop :=
  ∀ lens : List Nat, (∀ len ∈ lens, len < 2 ^ 31) → ∀ len < 2 ^ 31,
    (z.gzread (z.after h lens) len).1 = some ((b.drop lens.sum).take len)

def bufError : Int := -5

/-- The file behind the handle ends in the middle of the stream of `b`: reads
deliver the part `p` of it that is there, and only the error state tells it
from a complete stream, once a read has run into the end. -/
structure Zlib.CutOff (z : Zlib) (h : z.Handle) (b p : Bytes) : Prop where
  front : p <+: b
  delivers : z.Delivers h p
  reported : ∀ lens : List Nat, (∀ len ∈ lens, len < 2 ^ 31) → p.length < lens.sum →
    z.gzerror (z.after h lens) = bufError

def Zlib.Succeeds (z : Zlib) : z.Handle → List Nat → Prop
  | _, [] => True
  | h, len :: lens => (z.gzread h len).1 ≠ none ∧ z.Succeeds (z.gzread h len).2 lens

theorem Zlib.succeeds_cons (z : Zlib) (h : z.Handle) (len : Nat) (lens : List Nat) :
    z.Succeeds h (len :: lens) ↔
      (z.gzread h len).1 ≠ none ∧ z.Succeeds (z.gzread h len).2 lens := Iff.rfl

/-- As long as no read has failed, a read either fails or returns the next
bytes of `b`, as many as were asked for and are left. -/
def Zlib.Streams (z : Zlib) (h : z.Handle) (b : Bytes) : Prop :=
  ∀ lens : List Nat, (∀ len ∈ lens, len < 2 ^ 31) → z.Succeeds h lens → ∀ len < 2 ^ 31,
    ∀ bytes, (z.gzread (z.after h lens) len).1 = some bytes →
      bytes = (b.drop lens.sum).take len

section Delivers

variable {z : Zlib} {h : z.Handle} {b : Bytes} {len : Nat}

theorem Zlib.Streams.read (hstr : z.Streams h b) (hlen : len < 2 ^ 31)
    (hread : (z.gzread h len).1 ≠ none) : (z.gzread h len).1 = some (b.take len) := by
  obtain ⟨bytes, hbytes⟩ := Option.ne_none_iff_exists'.mp hread
  have hnext := hstr [] (by simp) trivial len hlen bytes hbytes
  rw [hbytes, hnext]
  rfl

theorem Zlib.Streams.rest (hstr : z.Streams h b) (hlen : len < 2 ^ 31)
    (hread : (z.gzread h len).1 ≠ none) : z.Streams (z.gzread h len).2 (b.drop len) := by
  intro lens hlens hsucceeds next hnext bytes hbytes
  have hall : ∀ n ∈ len :: lens, n < 2 ^ 31 := by
    intro n hn
    rcases List.mem_cons.mp hn with rfl | hn
    · exact hlen
    · exact hlens n hn
  have hstep := hstr (len :: lens) hall ⟨hread, hsucceeds⟩ next hnext bytes hbytes
  rwa [List.drop_drop]

theorem Zlib.Delivers.read (hdel : z.Delivers h b) (hlen : len < 2 ^ 31) :
    (z.gzread h len).1 = some (b.take len) := by
  simpa [Zlib.after] using hdel [] (by simp) len hlen

theorem Zlib.Delivers.rest (hdel : z.Delivers h b) (hlen : len < 2 ^ 31) :
    z.Delivers (z.gzread h len).2 (b.drop len) := by
  intro lens hlens next hnext
  have hall : ∀ n ∈ len :: lens, n < 2 ^ 31 := by
    intro n hn
    rcases List.mem_cons.mp hn with rfl | hn
    · exact hlen
    · exact hlens n hn
  simpa [Zlib.after, List.drop_drop, Nat.add_comm] using hdel (len :: lens) hall next hnext

theorem Zlib.Delivers.streams (hdel : z.Delivers h b) : z.Streams h b := by
  intro lens hlens _ len hlen bytes hbytes
  rw [hdel lens hlens len hlen] at hbytes
  exact (Option.some.inj hbytes).symm

theorem Zlib.Delivers.succeeds {lens : List Nat} (hdel : z.Delivers h b)
    (hlens : ∀ len ∈ lens, len < 2 ^ 31) : z.Succeeds h lens := by
  induction lens generalizing h b with
  | nil => trivial
  | cons len lens ih =>
      have hlen := hlens len List.mem_cons_self
      refine ⟨?_, ih (hdel.rest hlen) fun n hn => hlens n (List.mem_cons_of_mem _ hn)⟩
      rw [hdel.read hlen]
      exact Option.some_ne_none _

end Delivers

/-! ## Writes at the position of a file -/

def chunks (size : Nat) : List Nat :=
  List.replicate (size / blockSize) blockSize ++ List.replicate (size % blockSize) 1

theorem chunks_block {size : Nat} (h : blockSize ≤ size) :
    chunks size = blockSize :: chunks (size - blockSize) := by
  have hpos : 0 < blockSize := by decide
  unfold chunks
  -- the kernel must not compare numerals of the size of a block
  generalize blockSize = block at h hpos ⊢
  rw [Nat.div_eq_sub_div hpos h, Nat.mod_eq_sub_mod h, List.replicate_succ, List.cons_append]

theorem chunks_tail {size : Nat} (h : size < blockSize) : chunks size = List.replicate size 1 := by
  simp only [chunks, Nat.div_eq_of_lt h, Nat.mod_eq_of_lt h, List.replicate_zero, List.nil_append]

/-- The writes through `file`, which stood at `pos` of `f`, have come to one
write of `copied`. -/
structure FdT.Appended (file : Fd) (f : RegularFile) (pos : Nat) (copied : Bytes) (self : Fd) :
    Prop where
  inside : pos ≤ f.size
  output : ∃ g : RegularFile, g.content = overwrite f.content pos copied ∧
    self = { file with fd := some ⟨g, pos + copied.length⟩ }

section Write

variable {file self : Fd} {f : RegularFile} {pos : Nat} {copied : Bytes}

theorem FdT.Appended.start (hfd : file.fd = some ⟨f, pos⟩) (hpos : pos ≤ f.size) :
    FdT.Appended file f pos [] file := by
  refine ⟨hpos, f, (overwrite_nil hpos).symm, ?_⟩
  cases file
  simp only at hfd
  subst hfd
  rfl

theorem FdT.Appended.lt (h : FdT.Appended file f pos copied self) :
    pos + copied.length < offLimit := by
  obtain ⟨hpos, g, hg, _⟩ := h
  have hsize := g.size_lt
  rw [hg, overwrite_length hpos] at hsize
  exact (max_lt_iff.mp hsize).2

theorem WriteOutcome.stores_accepted_iff (data : Bytes) (count : Nat) :
    WriteOutcome.stores data.length (.accepted count) = true ↔ data.take count = data := by
  rw [WriteOutcome.stores, decide_eq_true_iff]
  constructor
  · exact List.take_of_length_le
  · intro heq
    rw [← heq]
    exact List.length_take_le count data

theorem length_take_beq_iff (data : Bytes) (count : Nat) :
    (((data.take count).length : Int) == (data.length : Int)) = true ↔ data.take count = data := by
  rw [beq_iff_eq, Int.natCast_inj]
  constructor
  · exact (List.take_prefix count data).eq_of_length
  · exact congrArg List.length

theorem neg_one_beq_natCast (n : Nat) : ((-1 : Int) == (n : Int)) = false := by
  apply beq_false_of_ne
  omega

theorem FdT.Appended.write_failed (h : FdT.Appended file f pos copied self) (data : Bytes) :
    self.write data .failed = (false, self) := by
  obtain ⟨_, g, _, rfl⟩ := h
  simp only [FdT.write, fdwrite, neg_one_beq_natCast]

theorem FdT.Appended.write_accepted (h : FdT.Appended file f pos copied self) (data : Bytes)
    (count : Nat) :
    let w := self.write data (.accepted count)
    (pos + (copied ++ data.take count).length < offLimit →
        FdT.Appended file f pos (copied ++ data.take count) w.2 ∧
          (w.1 = true ↔ data.take count = data)) ∧
      (¬ pos + (copied ++ data.take count).length < offLimit → w = (false, self)) := by
  intro w
  obtain ⟨hpos, g, hg, rfl⟩ := h
  have hover : overwrite g.content (pos + copied.length) (data.take count) =
      overwrite f.content pos (copied ++ data.take count) := by
    rw [hg, overwrite_overwrite _ hpos]
  have hsize : (overwrite f.content pos (copied ++ data.take count)).length < offLimit ↔
      pos + (copied ++ data.take count).length < offLimit := by
    rw [overwrite_length hpos]
    exact max_lt_iff.trans (and_iff_right f.size_lt)
  rw [← hsize]
  constructor
  · intro hroom
    simp only [w, FdT.write, fdwrite, hover, dif_pos hroom]
    refine ⟨⟨hpos, ⟨_, hroom⟩, rfl, ?_⟩, length_take_beq_iff data count⟩
    simp only [List.length_append, Nat.add_assoc]
  · intro hroom
    simp only [w, FdT.write, fdwrite, hover, dif_neg hroom, neg_one_beq_natCast]

/-- One more write appends a prefix of its data: all of it exactly when it
reports success, and that is when it is stored and the file can hold it. -/
theorem FdT.write_appends (outcome : WriteOutcome) (h : FdT.Appended file f pos copied self)
    (data : Bytes) :
    ∃ added, added <+: data ∧
      FdT.Appended file f pos (copied ++ added) (self.write data outcome).2 ∧
      ((self.write data outcome).1 = true ↔
        outcome.stores data.length = true ∧ pos + (copied ++ data).length < offLimit) ∧
      ((self.write data outcome).1 = true → added = data) := by
  have hnothing : FdT.Appended file f pos (copied ++ []) self := by
    rwa [List.append_nil]
  cases outcome with
  | failed =>
      rw [h.write_failed data]
      refine ⟨[], List.nil_prefix, hnothing, ?_, fun htrue => absurd htrue Bool.false_ne_true⟩
      exact iff_of_false Bool.false_ne_true fun hboth => Bool.false_ne_true hboth.1
  | accepted count =>
      obtain ⟨hfits, hrefused⟩ := h.write_accepted data count
      rw [WriteOutcome.stores_accepted_iff]
      by_cases hroom : pos + (copied ++ data.take count).length < offLimit
      · obtain ⟨happended, hall⟩ := hfits hroom
        refine ⟨data.take count, List.take_prefix count data, happended, ?_, hall.mp⟩
        rw [hall]
        constructor
        · intro heq
          rw [heq] at hroom
          exact ⟨heq, hroom⟩
        · exact fun hboth => hboth.1
      · rw [hrefused hroom]
        refine ⟨[], List.nil_prefix, hnothing, ?_, fun htrue => absurd htrue Bool.false_ne_true⟩
        refine iff_of_false Bool.false_ne_true ?_
        rintro ⟨heq, hlt⟩
        rw [heq] at hroom
        exact hroom hlt

end Write

/-! ## The copy loops -/

/-- Nothing goes wrong in a copy of `size` bytes to position `pos`: its reads
succeed, its writes, from the n-th call on, store their bytes, and the file can
hold them. -/
structure Undisturbed (z : Zlib) (h : z.Handle) (writes : Nat → WriteOutcome) (n pos size : Nat) :
    Prop where
  reads : z.Succeeds h (List.replicate (size / blockSize + 1) blockSize)
  stored : AllStored writes n (chunks size)
  room : pos + size < offLimit

theorem undisturbed_block {z : Zlib} {h : z.Handle} {writes : Nat → WriteOutcome} {n pos size : Nat}
    (hfull : blockSize ≤ size) :
    Undisturbed z h writes n pos size ↔
      (z.gzread h blockSize).1 ≠ none ∧ (writes n).stores blockSize = true ∧
        Undisturbed z (z.gzread h blockSize).2 writes (n + 1) (pos + blockSize)
          (size - blockSize) := by
  have hreads : List.replicate (size / blockSize + 1) blockSize =
      blockSize :: List.replicate ((size - blockSize) / blockSize + 1) blockSize := by
    have hpos : 0 < blockSize := by decide
    rw [← List.replicate_succ]
    generalize blockSize = block at hfull hpos ⊢
    rw [Nat.div_eq_sub_div hpos hfull]
  have hroom : pos + blockSize + (size - blockSize) = pos + size := by
    generalize blockSize = block at hfull ⊢
    omega
  constructor
  · rintro ⟨hreads', hstored, hlt⟩
    rw [hreads, Zlib.succeeds_cons] at hreads'
    rw [chunks_block hfull, allStored_cons] at hstored
    exact ⟨hreads'.1, hstored.1, hreads'.2, hstored.2, by rwa [hroom]⟩
  · rintro ⟨hread, hstores, hreads', hstored, hlt⟩
    refine ⟨?_, ?_, by rwa [hroom] at hlt⟩
    · rw [hreads, Zlib.succeeds_cons]
      exact ⟨hread, hreads'⟩
    · rw [chunks_block hfull, allStored_cons]
      exact ⟨hstores, hstored⟩

theorem undisturbed_tail {z : Zlib} {h : z.Handle} {writes : Nat → WriteOutcome} {n pos size : Nat}
    (hshort : size < blockSize) :
    Undisturbed z h writes n pos size ↔
      (z.gzread h blockSize).1 ≠ none ∧ AllStored writes n (List.replicate size 1) ∧
        pos + size < offLimit := by
  have hreads : List.replicate (size / blockSize + 1) blockSize = [blockSize] := by
    rw [Nat.div_eq_of_lt hshort]
    rfl
  constructor
  · rintro ⟨hread, hstored, hlt⟩
    rw [hreads] at hread
    rw [chunks_tail hshort] at hstored
    exact ⟨hread.1, hstored, hlt⟩
  · rintro ⟨hread, hstored, hlt⟩
    refine ⟨?_, ?_, hlt⟩
    · rw [hreads]
      exact ⟨hread, trivial⟩
    · rwa [chunks_tail hshort]

namespace Decompression

variable {z : Zlib} {writes : Nat → WriteOutcome} {handle : z.Handle} {file : Fd}
  {f : RegularFile} {pos : Nat} {copied rest : Bytes} {s : Decompression z}

structure Streaming (handle : z.Handle) (rest : Bytes) (s : Decompression z) : Prop where
  gzFile : s.gz.gzFile = some handle
  streams : z.Streams handle rest
  tmp : s.tmp.length = blockSize

structure Copying (file : Fd) (f : RegularFile) (pos : Nat) (handle : z.Handle)
    (copied rest : Bytes) (s : Decompression z) : Prop extends s.Streaming handle rest where
  output : FdT.Appended file f pos copied s.file
  count : s.decmpressed = Int32.ofNat copied.length

theorem blockSize_lt : blockSize < 2 ^ 31 := by decide

theorem Streaming.gzread_eq (h : s.Streaming handle rest) :
    s.gz.gzread blockSize =
      ((z.gzread handle blockSize).1,
        { s.gz with gzFile := some (z.gzread handle blockSize).2 }) := by
  simp only [GzFileT.gzread, h.gzFile]

theorem copyBlock_error (writes : Nat → WriteOutcome) (h : s.Streaming handle rest)
    (hread : (z.gzread handle blockSize).1 = none) :
    ∃ next, copyBlock writes s = .stop (some (-1), next) ∧ next.file = s.file := by
  refine ⟨{ s with gz := (s.gz.gzread blockSize).2 }, ?_, rfl⟩
  simp only [copyBlock, h.gzread_eq, hread]

section Read

variable (writes) (h : s.Streaming handle rest) (hread : (z.gzread handle blockSize).1 ≠ none)

include h hread

theorem copyBlock_full (hfull : blockSize ≤ rest.length) :
    copyBlock writes s =
      let t := { s with gz := (s.gz.gzread blockSize).2, tmp := rest.take blockSize }
      let w := t.write writes (rest.take blockSize)
      if w.1 then
        .more { w.2 with
          decmpressed := w.2.decmpressed + Int32.ofNat blockSize
          tmp := List.replicate blockSize 0 }
      else .stop (none, w.2) := by
  have hlen : (rest.take blockSize).length = blockSize := List.length_take_of_le hfull
  have htmp : rest.take blockSize ++ s.tmp.drop blockSize = rest.take blockSize := by
    rw [List.drop_eq_nil_of_le (Nat.le_of_eq h.tmp), List.append_nil]
  simp only [copyBlock, h.gzread_eq, h.streams.read blockSize_lt hread, hlen, htmp, if_true]

theorem copyBlock_last (hshort : rest.length < blockSize) :
    ∃ next, copyBlock writes s = .stop (some rest.length, next) ∧
      next.tmp.take rest.length = rest ∧ next.calls = s.calls ∧ next.file = s.file ∧
      next.decmpressed = s.decmpressed := by
  have hbytes := h.streams.read blockSize_lt hread
  rw [List.take_of_length_le (Nat.le_of_lt hshort)] at hbytes
  refine ⟨{ s with gz := (s.gz.gzread blockSize).2, tmp := rest ++ s.tmp.drop rest.length },
    ?_, ?_, rfl, rfl, rfl⟩
  · simp only [copyBlock, h.gzread_eq, hbytes, if_neg (Nat.ne_of_lt hshort)]
  · exact List.take_left

end Read

theorem copyBlock_block (writes : Nat → WriteOutcome) (h : s.Copying file f pos handle copied rest)
    (hread : (z.gzread handle blockSize).1 ≠ none) (hfull : blockSize ≤ rest.length) :
    ((writes s.calls).stores blockSize = true ∧ pos + (copied.length + blockSize) < offLimit ∧
      ∃ next, copyBlock writes s = .more next ∧
        next.Copying file f pos (z.gzread handle blockSize).2 (copied ++ rest.take blockSize)
          (rest.drop blockSize) ∧
        next.calls = s.calls + 1) ∨
    (¬ ((writes s.calls).stores blockSize = true ∧ pos + (copied.length + blockSize) < offLimit) ∧
      ∃ next added, copyBlock writes s = .stop (none, next) ∧ added <+: rest ∧
        FdT.Appended file f pos (copied ++ added) next.file) := by
  have hlen : (rest.take blockSize).length = blockSize := List.length_take_of_le hfull
  have hround := copyBlock_full writes h.toStreaming hread hfull
  obtain ⟨added, hadded, happended, hstored, hall⟩ :=
    FdT.write_appends (writes s.calls) h.output (rest.take blockSize)
  rw [hlen, List.length_append, hlen] at hstored
  simp only [write] at hround
  cases hwrite : (s.file.write (rest.take blockSize) (writes s.calls)).1 with
  | true =>
      obtain ⟨hstores, hroom⟩ := hstored.mp hwrite
      rw [hall hwrite] at happended
      simp only [hwrite, if_true] at hround
      refine .inl ⟨hstores, hroom, _, hround, ⟨⟨?_, ?_, List.length_replicate⟩, happended, ?_⟩, rfl⟩
      · rw [h.gzread_eq]
      · exact h.streams.rest blockSize_lt hread
      · rw [List.length_append, hlen, Int32.ofNat_add, ← h.count]
  | false =>
      simp only [hwrite, Bool.false_eq_true, if_false] at hround
      refine .inr ⟨?_, _, added, hround, hadded.trans (List.take_prefix _ _), happended⟩
      intro hboth
      rw [hstored.mpr hboth] at hwrite
      cases hwrite

/-- The byte loop appends a prefix of the bytes, and all of them exactly when
every one is stored. -/
theorem copyTail_appends (writes : Nat → WriteOutcome) (rest : Bytes)
    (h : FdT.Appended file f pos copied s.file) :
    ∃ added, added <+: rest ∧
      FdT.Appended file f pos (copied ++ added) (copyTail writes rest s).2.file ∧
      ((copyTail writes rest s).1 = true ↔
        AllStored writes s.calls (List.replicate rest.length 1) ∧
          pos + (copied.length + rest.length) < offLimit) ∧
      ((copyTail writes rest s).1 = true →
        added = rest ∧ (copyTail writes rest s).2.decmpressed = s.decmpressed) := by
  induction rest generalizing s copied with
  | nil =>
      refine ⟨[], List.nil_prefix, ?_, ?_, fun _ => ⟨rfl, rfl⟩⟩
      · rwa [List.append_nil]
      · exact iff_of_true rfl ⟨trivial, h.lt⟩
  | cons byte rest ih =>
      obtain ⟨first, hfirst, happended, hstored, hall⟩ :=
        FdT.write_appends (writes s.calls) h [byte]
      rw [List.length_append, List.length_singleton] at hstored
      change FdT.Appended file f pos (copied ++ first) (s.write writes [byte]).2.file at happended
      have hcalls : (s.write writes [byte]).2.calls = s.calls + 1 := rfl
      have hdecm : (s.write writes [byte]).2.decmpressed = s.decmpressed := rfl
      cases hwrite : (s.write writes [byte]).1 with
      | true =>
          obtain ⟨hstores, hroom⟩ := hstored.mp hwrite
          rw [hall hwrite] at happended
          obtain ⟨added, hadded, hrest, htail, hsame⟩ := ih happended
          rw [hcalls] at htail
          rw [hdecm] at hsame
          simp only [copyTail, hwrite, if_true]
          refine ⟨byte :: added, List.cons_prefix_cons.mpr ⟨rfl, hadded⟩, ?_, ?_, ?_⟩
          · rwa [List.append_cons]
          · have hsum : copied.length + 1 + rest.length = copied.length + (rest.length + 1) := by
              omega
            rw [htail, List.length_append, List.length_singleton, hsum, List.length_cons,
              List.replicate_succ, allStored_cons]
            have hone : (writes s.calls).stores 1 = true := hstores
            simp only [hone, true_and]
          · intro htrue
            obtain ⟨heq, hcount⟩ := hsame htrue
            exact ⟨by rw [heq], hcount⟩
      | false =>
          simp only [copyTail, hwrite, Bool.false_eq_true, if_false]
          refine ⟨first, hfirst.trans (List.prefix_append [byte] rest), happended, ?_, False.elim⟩
          refine iff_of_false not_false ?_
          rintro ⟨hstores, hroom⟩
          rw [List.length_cons, List.replicate_succ, allStored_cons] at hstores
          have hlt : pos + (copied.length + 1) < offLimit := by
            rw [List.length_cons] at hroom
            omega
          have htrue : (s.write writes [byte]).1 = true := hstored.mpr ⟨hstores.1, hlt⟩
          rw [hwrite] at htrue
          cases htrue

theorem copyBlocks_eq (writes : Nat → WriteOutcome) (s : Decompression z) :
    s.copyBlocks writes =
      match copyBlock writes s with
      | .more next => next.copyBlocks writes
      | .stop r => r := by
  unfold copyBlocks
  rw [loop_eq]
  cases copyBlock writes s <;> rfl

theorem drop_block_lt {rest : Bytes} (h : blockSize ≤ rest.length) :
    (rest.drop blockSize).length < rest.length := by
  have hpos : 0 < blockSize := by decide
  generalize blockSize = block at h hpos ⊢
  rw [List.length_drop]
  omega

/-- What the call makes of a copy of `rest` behind `copied`: it appends a prefix
of `rest`, all of it with the total as result if the copy is fine, and reports
failure if not. -/
structure CopyResult (file : Fd) (f : RegularFile) (pos : Nat) (copied rest : Bytes) (fine : Prop)
    (r : Int32 × Decompression z) : Prop where
  appended : ∃ added, added <+: rest ∧ FdT.Appended file f pos (copied ++ added) r.2.file ∧
    (fine → added = rest)
  total : fine → r.1 = Int32.ofNat (copied ++ rest).length
  failed : ¬ fine → r.1 = -1

theorem CopyResult.of_failed {fine : Prop} {r : Int32 × Decompression z} {added : Bytes}
    (hfine : ¬ fine) (hadded : added <+: rest)
    (happended : FdT.Appended file f pos (copied ++ added) r.2.file) (hret : r.1 = -1) :
    CopyResult file f pos copied rest fine r where
  appended := ⟨added, hadded, happended, fun h => absurd h hfine⟩
  total := fun h => absurd h hfine
  failed := fun _ => hret

theorem finish_tail (writes : Nat → WriteOutcome) {last : Decompression z}
    (houtput : FdT.Appended file f pos copied last.file)
    (hcount : last.decmpressed = Int32.ofNat copied.length)
    (htmp : last.tmp.take rest.length = rest) :
    CopyResult file f pos copied rest
      (AllStored writes last.calls (List.replicate rest.length 1) ∧
        pos + (copied.length + rest.length) < offLimit)
      (finish writes (some rest.length, last)) := by
  obtain ⟨added, hadded, happended, hstored, hall⟩ := copyTail_appends writes rest houtput
  have hnonneg : ¬ (rest.length : Int) < 0 := Int.not_lt.mpr (Int.natCast_nonneg _)
  simp only [finish, if_neg hnonneg, Int.toNat_natCast, htmp]
  cases htail : (copyTail writes rest last).1 with
  | true =>
      obtain ⟨heq, hdecm⟩ := hall htail
      have hfine := hstored.mp htail
      refine ⟨⟨added, hadded, happended, fun _ => heq⟩, fun _ => ?_, fun h => absurd hfine h⟩
      rw [if_pos rfl, hdecm, hcount, List.length_append, Int32.ofNat_add, Int32.ofInt_eq_ofNat]
  | false =>
      refine .of_failed ?_ hadded happended rfl
      intro hfine
      rw [hstored.mpr hfine] at htail
      cases htail

theorem finish_copyBlocks (writes : Nat → WriteOutcome)
    (h : s.Copying file f pos handle copied rest) :
    CopyResult file f pos copied rest
      (Undisturbed z handle writes s.calls (pos + copied.length) rest.length)
      (finish writes (s.copyBlocks writes)) := by
  generalize hn : rest.length = n
  induction n using Nat.strongRecOn generalizing s copied rest handle with
  | ind n ih =>
      subst hn
      rw [copyBlocks_eq]
      by_cases hread : (z.gzread handle blockSize).1 = none
      · obtain ⟨next, hstop, hfile⟩ := copyBlock_error writes h.toStreaming hread
        have happended : FdT.Appended file f pos (copied ++ []) next.file := by
          rw [hfile, List.append_nil]
          exact h.output
        rw [hstop]
        exact .of_failed (fun hfine => hfine.reads.1 hread) List.nil_prefix happended rfl
      by_cases hfull : blockSize ≤ rest.length
      · have hlen : (rest.take blockSize).length = blockSize := List.length_take_of_le hfull
        rw [undisturbed_block hfull]
        rcases copyBlock_block writes h hread hfull with
          ⟨hstores, _, next, hmore, hnext, hcalls⟩ | ⟨hrefused, next, added, hstop, hadded, happended⟩
        · obtain ⟨⟨added, hadded, happended, hall⟩, htotal, hfailed⟩ :=
            ih _ (drop_block_lt hfull) hnext rfl
          rw [hcalls, List.length_append, hlen, List.length_drop, ← Nat.add_assoc]
            at hall htotal hfailed
          rw [List.append_assoc] at happended htotal
          rw [List.take_append_drop] at htotal
          simp only [hmore, ne_eq, hread, not_false_iff, hstores, true_and]
          refine ⟨⟨rest.take blockSize ++ added, ?_, happended, ?_⟩, htotal, hfailed⟩
          · have hprefix := (List.prefix_append_right_inj (rest.take blockSize)).mpr hadded
            rwa [List.take_append_drop] at hprefix
          · intro hfine
            rw [hall hfine, List.take_append_drop]
        · rw [hstop]
          refine .of_failed ?_ hadded happended rfl
          rintro ⟨_, hstores, hfine⟩
          have hroom := hfine.room
          exact hrefused ⟨hstores, by omega⟩
      · have hshort : rest.length < blockSize := Nat.not_le.mp hfull
        obtain ⟨last, hstop, htmp, hcalls, hfile, hcount⟩ :=
          copyBlock_last writes h.toStreaming hread hshort
        have htail := finish_tail writes (by rw [hfile]; exact h.output)
          (hcount.trans h.count) htmp
        rw [hcalls, ← Nat.add_assoc] at htail
        rw [hstop, undisturbed_tail hshort]
        simpa only [ne_eq, hread, not_false_iff, true_and] using htail

end Decompression

/-! ## The whole call -/

section DecompressTo

variable {z : Zlib} {self : GzFileT z} {h : z.Handle} {b : Bytes} {file : Fd}

theorem Decompression.copying_start {f : RegularFile} {pos : Nat} (hgz : self.gzFile = some h)
    (hstr : z.Streams h b) (hfd : file.fd = some ⟨f, pos⟩) (hpos : pos ≤ f.size) :
    (Decompression.start self file).Copying file f pos h [] b :=
  ⟨⟨hgz, hstr, List.length_replicate⟩, .start hfd hpos, rfl⟩

theorem GzFileT.decompressTo_result {f : RegularFile} {pos : Nat} (writes : Nat → WriteOutcome)
    (hgz : self.gzFile = some h) (hstr : z.Streams h b) (hfd : file.fd = some ⟨f, pos⟩)
    (hpos : pos ≤ f.size) :
    Decompression.CopyResult file f pos [] b (Undisturbed z h writes 0 pos b.length)
      (self.decompressTo file writes) := by
  exact Decompression.finish_copyBlocks writes (Decompression.copying_start hgz hstr hfd hpos)

theorem Zlib.Delivers.undisturbed_iff {writes : Nat → WriteOutcome} {pos : Nat}
    (hdel : z.Delivers h b) (hroom : pos + b.length < offLimit) :
    Undisturbed z h writes 0 pos b.length ↔ AllStored writes 0 (chunks b.length) := by
  constructor
  · exact fun hfine => hfine.stored
  · intro hstored
    refine ⟨hdel.succeeds ?_, hstored, hroom⟩
    intro len hlen
    rw [List.eq_of_mem_replicate hlen]
    exact Decompression.blockSize_lt

/-- The bytes that zlib delivers replace the front of the output file when every
write stores its share of them, and otherwise the call reports failure. -/
theorem GzFileT.decompressTo_delivers {f : RegularFile} (writes : Nat → WriteOutcome)
    (hgz : self.gzFile = some h) (hdel : z.Delivers h b) (hfd : file.fd = some ⟨f, 0⟩)
    (hsize : b.length < offLimit) :
    (AllStored writes 0 (chunks b.length) →
        (self.decompressTo file writes).1 = Int32.ofNat b.length ∧
          FdT.Appended file f 0 b (self.decompressTo file writes).2.file) ∧
      (¬ AllStored writes 0 (chunks b.length) → (self.decompressTo file writes).1 = -1) := by
  obtain ⟨⟨added, _, happended, hall⟩, htotal, hfailed⟩ :=
    decompressTo_result writes hgz hdel.streams hfd (Nat.zero_le _)
  rw [hdel.undisturbed_iff (by rwa [Nat.zero_add])] at hall htotal hfailed
  refine ⟨fun hstored => ⟨htotal hstored, ?_⟩, hfailed⟩
  rwa [hall hstored] at happended

theorem GzFileT.decompressTo_closed (writes : Nat → WriteOutcome) (hgz : self.gzFile = some h)
    (hdel : z.Delivers h b) (hclosed : file.fd = none) :
    (self.decompressTo file writes).1 = if b = [] then 0 else -1 := by
  have hstart : (Decompression.start self file).Streaming h b :=
    ⟨hgz, hdel.streams, List.length_replicate⟩
  have hread : (z.gzread h blockSize).1 ≠ none := by
    rw [hdel.read Decompression.blockSize_lt]
    exact Option.some_ne_none _
  have hrefused : ∀ data outcome, (file.write data outcome).1 = false := by
    intro data outcome
    simp only [FdT.write, hclosed]
  unfold decompressTo
  rw [Decompression.copyBlocks_eq]
  by_cases hfull : blockSize ≤ b.length
  · have hne : b ≠ [] := by
      intro hnil
      rw [hnil] at hfull
      exact absurd hfull (by decide)
    have hwrite := hrefused (b.take blockSize) (writes 0)
    have hround := Decompression.copyBlock_full writes hstart hread hfull
    simp only [Decompression.start, Decompression.write] at hround hwrite ⊢
    simp only [hround, hwrite, Bool.false_eq_true, if_false, Decompression.finish, if_neg hne]
  · obtain ⟨last, hstop, htmp, _, hfile, hcount⟩ :=
      Decompression.copyBlock_last writes hstart hread (Nat.not_le.mp hfull)
    have hnonneg : ¬ (b.length : Int) < 0 := Int.not_lt.mpr (Int.natCast_nonneg _)
    simp only [hstop, Decompression.finish, if_neg hnonneg, Int.toNat_natCast, htmp]
    cases b with
    | nil =>
        simp only [Decompression.copyTail, hcount]
        rfl
    | cons byte rest =>
        have hwrite : (last.write writes [byte]).1 = false := by
          simp only [Decompression.write, hfile, Decompression.start]
          exact hrefused _ _
        simp [Decompression.copyTail, hwrite]

end DecompressTo

/-- The 32-bit total collides with the failure value once every 4 GiB. -/
theorem ofNat_eq_neg_one (n : Nat) : Int32.ofNat n = -1 ↔ n % 2 ^ 32 = 2 ^ 32 - 1 := by
  rw [← Int32.toInt_inj, Int32.toInt_ofNat']
  have hneg : (-1 : Int32).toInt = -1 := by decide
  rw [hneg]
  simp only [Int32.size, Int.bmod]
  split <;> omega

end LibNokogiri.Internal
