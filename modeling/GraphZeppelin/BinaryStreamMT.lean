import GraphZeppelin.BinaryStream
import GraphZeppelin.Loop

/-!
# The stream read by many threads

`BinaryGraphStream_MT` reads the stream file with `pread`. Every
`MT_StreamReader` thread takes the next block of `buf_size` bytes by a
`fetch_add` on the shared offset `stream_off`, cuts it at a registered query
and at the end of the file, and reads it into its own buffer, calling
`pread` until as many bytes were read as it asked for.

The end of the file is computed from the header, not taken from the file,
and the loop adds up what `pread` returned without moving on in the buffer or
in the request: every call writes at the start of the buffer and asks for
the whole block again. With a `pread` that reads in one call what it is
asked for, as on a complete regular file, the block is read
(`readData_filePread`). On a file that ends before its header says, `pread`
reads nothing at the end and the loop never stops; after a short read the
bytes of the next call land at the start of the buffer, where the first
bytes of the block belong (`read_data_unchecked`).
-/

namespace GraphZeppelin

open Bytes

/-! ## `pread` -/

/-- What `pread` returns on the `k`-th call of a loop, asked for `count`
bytes at `offset`: `none` for `-1`, or the number of bytes it read. -/
abbrev PreadBehaviour := ℕ → ℕ → ℕ → Option ℕ

/-- `pread` on a regular file that nobody writes: every byte asked for that
the file has. -/
def filePread (file : List UInt8) : PreadBehaviour :=
  fun _ count offset => some (min count (file.length - offset))

/-- A behaviour POSIX allows on the file: `-1`, or a count bounded by the
request and by the bytes the file has from the offset. -/
def PreadBehaviour.Valid (file : List UInt8) (pread : PreadBehaviour) : Prop :=
  ∀ k count offset r, pread k count offset = some r → r ≤ count ∧ r ≤ file.length - offset

theorem valid_filePread (file : List UInt8) : (filePread file).Valid file := by
  intro k count offset r h
  cases h
  exact ⟨Nat.min_le_left _ _, Nat.min_le_right _ _⟩

/-! ## The shared stream -/

/-- `BinaryGraphStream_MT`: the file behind `stream_fd`, the header, the
block size, and the offsets the threads share. -/
structure BinaryGraphStreamMT where
  /-- The bytes of the file `stream_fd` is open on. -/
  streamFd : List UInt8
  /-- `num_nodes`. -/
  numNodes : UInt32
  /-- `num_edges`. -/
  numEdges : UInt64
  /-- `buf_size`, a multiple of `edge_size`. -/
  bufSize : UInt32
  /-- `end_of_file`, computed from the header. -/
  endOfFile : UInt64
  /-- `stream_off`: where the next block starts. -/
  streamOff : UInt64
  /-- `query_index`: the offset of the registered query, or `2^64 - 1`. -/
  queryIndex : UInt64
  /-- `query_block`. -/
  queryBlock : Bool
  deriving DecidableEq, Repr

namespace BinaryGraphStreamMT

/-- `BinaryGraphStream_MT(file_name, _b)` on a file that opens: the header is
read with `read`, which on a regular file reads what is asked for as far as
the file goes. -/
def ofFile (file : List UInt8) (b : UInt32) : Except StreamException BinaryGraphStreamMT :=
  if file.length < 4 then .error .badStream
  else if file.length < 12 then .error .badStream
  else
    let numEdges := (ofBytesLE ((file.drop 4).take 8)).toUInt64
    .ok { streamFd := file
          numNodes := (ofBytesLE (file.take 4)).toUInt32
          numEdges := numEdges
          bufSize := b - b % 9
          endOfFile := numEdges * 9 + 12
          streamOff := 12
          queryIndex := 18446744073709551615
          queryBlock := false }

/-- `register_query(query_idx)`: the query is set at the offset of record
`query_idx`, unless the threads are already past it. -/
def registerQuery (s : BinaryGraphStreamMT) (queryIdx : UInt64) : BinaryGraphStreamMT × Bool :=
  let byteIndex := 12 + queryIdx * 9
  if byteIndex ≤ s.streamOff then (s, false) else ({ s with queryIndex := byteIndex }, true)

theorem registerQuery_eq_true {s s' : BinaryGraphStreamMT} {queryIdx : UInt64}
    (h : s.registerQuery queryIdx = (s', true)) :
    s' = { s with queryIndex := 12 + queryIdx * 9 } ∧ s.streamOff < 12 + queryIdx * 9 := by
  unfold registerQuery at h
  dsimp only at h
  split at h
  · cases h
  · next hlt => cases h; exact ⟨rfl, UInt64.not_le.mp hlt⟩

/-- The guard at the start of `read_data`: a thread takes a block unless a
query blocks, the stream is done, or the registered query is reached. -/
def guard (s : BinaryGraphStreamMT) : Bool :=
  !(s.queryBlock || s.endOfFile ≤ s.streamOff || s.queryIndex ≤ s.streamOff)

/-- `stream_off.fetch_add(buf_size)`: the offset `read_off` the thread reads
from, and the stream after. -/
def fetchAdd (s : BinaryGraphStreamMT) : UInt64 × BinaryGraphStreamMT :=
  (s.streamOff, { s with streamOff := s.streamOff + s.bufSize.toUInt64 })

/-- The checks after the `fetch_add`: `none` where the thread returns `0`,
else `data_to_read`, the block cut at the query and at the end of the file;
and the stream after the stores of `query_index` into `stream_off`. -/
def cut (s : BinaryGraphStreamMT) (readOff : UInt64) : BinaryGraphStreamMT × Option UInt64 :=
  if s.queryIndex ≤ readOff then ({ s with streamOff := s.queryIndex }, none)
  else if s.endOfFile ≤ readOff then (s, none)
  else
    -- the query truncates the read
    let q := if readOff ≤ s.queryIndex ∧ s.queryIndex < readOff + s.bufSize.toUInt64 then
        (s.queryIndex - readOff, { s with streamOff := s.queryIndex })
      else (s.bufSize.toUInt64, s)
    -- EOF truncates the read
    (q.2, some (if s.endOfFile < readOff + q.1 then s.endOfFile - readOff else q.1))

/-- The locals of the loop of `read_data`: `data_read`, the thread's buffer,
and how many calls of `pread` were made. -/
structure PreadLoop where
  /-- `data_read`. -/
  dataRead : ℕ
  /-- The thread's buffer `buf`. -/
  buf : List UInt8
  /-- The calls of `pread` so far. -/
  calls : ℕ
  deriving DecidableEq, Repr

/-- One pass of `while (data_read < data_to_read)`: `pread(stream_fd, buf,
data_to_read, read_off + data_read)` stores what it read at the start of
`buf`. -/
def preadStep (pread : PreadBehaviour) (file : List UInt8) (readOff dataToRead : ℕ)
    (st : PreadLoop) : PreadLoop ⊕ Except StreamException PreadLoop :=
  if st.dataRead < dataToRead then
    match pread st.calls dataToRead (readOff + st.dataRead) with
    | none => .inr (.error .streamFailed)
    | some ret =>
      .inl ⟨st.dataRead + ret, overwrite st.buf ((file.drop (readOff + st.dataRead)).take ret),
        st.calls + 1⟩
  else .inr (.ok st)

/-- `read_data(buf)` run by one thread with no other thread in between, and
`fuel` passes of its loop: the stream after, and the count returned with
the buffer, or the exception thrown. -/
def readData (pread : PreadBehaviour) (s : BinaryGraphStreamMT) (buf : List UInt8) (fuel : ℕ) :
    Option (BinaryGraphStreamMT × Except StreamException (UInt32 × List UInt8)) :=
  if s.guard then
    match s.fetchAdd.2.cut s.fetchAdd.1 with
    | (s', none) => some (s', .ok (0, buf))
    | (s', some dataToRead) =>
      (Loop.iterate (preadStep pread s.streamFd s.streamOff.toNat dataToRead.toNat) fuel
          ⟨0, buf, 0⟩).map
        fun r => (s', r.map fun st => (st.dataRead.toUInt32, st.buf))
  else some (s, .ok (0, buf))

/-! ## The loop of `read_data` -/

section Loop

variable {pread : PreadBehaviour} {file : List UInt8} {readOff dataToRead : ℕ}

theorem preadStep_of_lt {st : PreadLoop} (hlt : st.dataRead < dataToRead) {ret : ℕ}
    (h : pread st.calls dataToRead (readOff + st.dataRead) = some ret) :
    preadStep pread file readOff dataToRead st
      = .inl ⟨st.dataRead + ret, overwrite st.buf ((file.drop (readOff + st.dataRead)).take ret),
          st.calls + 1⟩ := by
  rw [preadStep, if_pos hlt, h]

theorem preadStep_of_le {st : PreadLoop} (hle : dataToRead ≤ st.dataRead) :
    preadStep pread file readOff dataToRead st = .inr (.ok st) := by
  rw [preadStep, if_neg (Nat.not_lt.mpr hle)]

/-- **A loop that reads nothing never ends.** If, from the current call on,
`pread` reads nothing at the offset the loop has reached, and the loop has
not read all it asked for, it runs for every amount of fuel. -/
theorem iterate_preadStep_eq_none {st : PreadLoop} (hlt : st.dataRead < dataToRead)
    (hzero : ∀ k, st.calls ≤ k → pread k dataToRead (readOff + st.dataRead) = some 0)
    (fuel : ℕ) : Loop.iterate (preadStep pread file readOff dataToRead) fuel st = none := by
  -- the loop stays at `data_read` while its calls go on
  refine Loop.iterate_eq_none (fun a => a.dataRead = st.dataRead ∧ st.calls ≤ a.calls)
    (fun a ⟨hd, hc⟩ => ?_) fuel st ⟨rfl, le_rfl⟩
  have hread := hzero a.calls hc
  rw [← hd] at hlt hread
  exact ⟨_, preadStep_of_lt hlt hread, by rw [Nat.add_zero, hd], Nat.le_succ_of_le hc⟩

/-- **One call that reads the whole block ends the loop**, with the bytes
read at the start of the buffer. -/
theorem iterate_preadStep_of_read (buf : List UInt8) (hpos : 0 < dataToRead)
    (hread : pread 0 dataToRead readOff = some dataToRead) (fuel : ℕ) :
    Loop.iterate (preadStep pread file readOff dataToRead) (fuel + 2) ⟨0, buf, 0⟩
      = some (.ok ⟨dataToRead, overwrite buf ((file.drop readOff).take dataToRead), 1⟩) := by
  have hfirst : preadStep pread file readOff dataToRead ⟨0, buf, 0⟩
      = .inl ⟨dataToRead, overwrite buf ((file.drop readOff).take dataToRead), 1⟩ := by
    rw [preadStep_of_lt hpos (by rw [Nat.add_zero]; exact hread), Nat.zero_add, Nat.add_zero]
  have hsecond : preadStep pread file readOff dataToRead
      ⟨dataToRead, overwrite buf ((file.drop readOff).take dataToRead), 1⟩
      = .inr (.ok ⟨dataToRead, overwrite buf ((file.drop readOff).take dataToRead), 1⟩) :=
    preadStep_of_le le_rfl
  rw [Loop.iterate_of_inl hfirst, Loop.iterate_of_inr hsecond]

/-- **A complete file is read in full**: with the `pread` of a regular file
that holds the block, a loop that stops has read exactly `data_to_read`
bytes, however much fuel it had, and they are at the start of the buffer. -/
theorem iterate_filePread (hread : readOff + dataToRead ≤ file.length) {fuel : ℕ}
    {buf : List UInt8} {st : PreadLoop}
    (h : Loop.iterate (preadStep (filePread file) file readOff dataToRead) fuel ⟨0, buf, 0⟩
      = some (.ok st)) :
    st.dataRead = dataToRead ∧ st.buf.take dataToRead = (file.drop readOff).take dataToRead := by
  -- the first call reads the whole block, so `data_read` is `0` or all of it, in the buffer
  have hstep : ∀ a a' : PreadLoop, (a.dataRead = 0 ∨ a.dataRead = dataToRead ∧
        a.buf.take dataToRead = (file.drop readOff).take dataToRead) →
      preadStep (filePread file) file readOff dataToRead a = .inl a' →
      a'.dataRead = 0 ∨ a'.dataRead = dataToRead ∧
        a'.buf.take dataToRead = (file.drop readOff).take dataToRead := by
    intro a a' ha hbody
    by_cases hlt : a.dataRead < dataToRead
    · have hzero : a.dataRead = 0 := by omega
      have hret : filePread file a.calls dataToRead (readOff + a.dataRead) = some dataToRead := by
        rw [filePread, hzero, Nat.add_zero, Nat.min_eq_left (by omega)]
      rw [preadStep_of_lt hlt hret, hzero, Nat.add_zero, Nat.zero_add] at hbody
      cases hbody
      have hlen : dataToRead ≤ ((file.drop readOff).take dataToRead).length := by
        simp only [List.length_take, List.length_drop]
        omega
      refine .inr ⟨rfl, ?_⟩
      show (overwrite a.buf _).take dataToRead = _
      rw [take_overwrite hlen, List.take_take, Nat.min_self]
    · rw [preadStep_of_le (Nat.not_lt.mp hlt)] at hbody
      cases hbody
  obtain ⟨a, ha, hbody⟩ := Loop.iterate_induction _ hstep fuel _ _ (.inl rfl) h
  by_cases hlt : a.dataRead < dataToRead
  · -- a pass that reads does not stop the loop
    have hret : filePread file a.calls dataToRead (readOff + a.dataRead)
        = some (min dataToRead (file.length - (readOff + a.dataRead))) := rfl
    rw [preadStep_of_lt hlt hret] at hbody
    cases hbody
  · rw [preadStep_of_le (Nat.not_lt.mp hlt)] at hbody
    cases hbody
    rcases ha with ha | ha
    · -- nothing was asked for
      have hzero : dataToRead = 0 := by omega
      subst hzero
      exact ⟨ha, by rw [List.take_zero, List.take_zero]⟩
    · exact ha

end Loop

/-! ## The block a thread takes -/

section Cut

variable {s : BinaryGraphStreamMT} {readOff : UInt64}

theorem cut_of_queryIndex_le (h : s.queryIndex ≤ readOff) :
    s.cut readOff = ({ s with streamOff := s.queryIndex }, none) :=
  if_pos h

theorem cut_of_endOfFile_le (hq : readOff < s.queryIndex) (he : s.endOfFile ≤ readOff) :
    s.cut readOff = (s, none) := by
  rw [cut, if_neg (UInt64.not_le.mpr hq), if_pos he]

/-- The end `eof` of a cut block, when the block ends past the end of the
file. -/
theorem toNat_cutEnd {a b : UInt64} (hb : a ≤ b) (c : UInt64) (hc : a.toNat + c.toNat < 2 ^ 64) :
    (if b < a + c then b - a else c).toNat = min c.toNat (b.toNat - a.toNat) := by
  have hadd : (a + c).toNat = a.toNat + c.toNat := by
    rw [UInt64.toNat_add, Nat.mod_eq_of_lt hc]
  rw [UInt64.le_iff_toNat_le] at hb
  split
  · next h =>
    rw [UInt64.lt_iff_toNat_lt, hadd] at h
    rw [UInt64.toNat_sub_of_le _ _ (UInt64.le_iff_toNat_le.mpr hb)]
    omega
  · next h =>
    rw [UInt64.lt_iff_toNat_lt, hadd] at h
    omega

/-- **The block a thread reads**: `buf_size` bytes from `read_off`, cut at
the query and at the end of the file; `stream_off` is set to the query when
the query falls inside the block. -/
theorem cut_of_lt (hq : readOff < s.queryIndex) (he : readOff < s.endOfFile)
    (hov : readOff.toNat + s.bufSize.toNat < 2 ^ 64) :
    ∃ d : UInt64, s.cut readOff = (if s.queryIndex.toNat < readOff.toNat + s.bufSize.toNat then
        { s with streamOff := s.queryIndex } else s, some d) ∧
      d.toNat = min (min s.bufSize.toNat (s.queryIndex.toNat - readOff.toNat))
        (s.endOfFile.toNat - readOff.toNat) := by
  have hend : (readOff + s.bufSize.toUInt64).toNat = readOff.toNat + s.bufSize.toNat := by
    rw [UInt64.toNat_add, UInt32.toNat_toUInt64, Nat.mod_eq_of_lt hov]
  rw [cut, if_neg (UInt64.not_le.mpr hq), if_neg (UInt64.not_le.mpr he)]
  rw [UInt64.lt_iff_toNat_lt] at hq he
  have hle := UInt64.le_iff_toNat_le.mpr he.le
  by_cases hin : s.queryIndex.toNat < readOff.toNat + s.bufSize.toNat
  · -- the query truncates the block
    have hcond : readOff ≤ s.queryIndex ∧ s.queryIndex < readOff + s.bufSize.toUInt64 := by
      rw [UInt64.le_iff_toNat_le, UInt64.lt_iff_toNat_lt, hend]
      omega
    have hsub : (s.queryIndex - readOff).toNat = s.queryIndex.toNat - readOff.toNat :=
      UInt64.toNat_sub_of_le _ _ (UInt64.le_iff_toNat_le.mpr hq.le)
    refine ⟨_, by simp only [if_pos hcond, if_pos hin]; rfl, ?_⟩
    rw [toNat_cutEnd hle _ (by omega), hsub]
    omega
  · have hcond : ¬(readOff ≤ s.queryIndex ∧ s.queryIndex < readOff + s.bufSize.toUInt64) := by
      rw [UInt64.le_iff_toNat_le, UInt64.lt_iff_toNat_lt, hend]
      omega
    refine ⟨_, by simp only [if_neg hcond, if_neg hin]; rfl, ?_⟩
    rw [toNat_cutEnd hle _ (by rw [UInt32.toNat_toUInt64]; omega), UInt32.toNat_toUInt64]
    omega

/-- **What the checks after the `fetch_add` can do**: drop a block at or
past the query, storing the query into `stream_off`; drop a block past the
end of the file; or cut the block. -/
theorem cut_cases (hov : readOff.toNat + s.bufSize.toNat < 2 ^ 64) :
    (s.queryIndex.toNat ≤ readOff.toNat ∧
        s.cut readOff = ({ s with streamOff := s.queryIndex }, none)) ∨
      (readOff.toNat < s.queryIndex.toNat ∧ s.endOfFile.toNat ≤ readOff.toNat ∧
        s.cut readOff = (s, none)) ∨
      (readOff.toNat < s.queryIndex.toNat ∧ readOff.toNat < s.endOfFile.toNat ∧ ∃ d : UInt64,
        s.cut readOff = (if s.queryIndex.toNat < readOff.toNat + s.bufSize.toNat then
            { s with streamOff := s.queryIndex } else s, some d) ∧
          d.toNat = min (min s.bufSize.toNat (s.queryIndex.toNat - readOff.toNat))
            (s.endOfFile.toNat - readOff.toNat)) := by
  by_cases hq : s.queryIndex ≤ readOff
  · exact .inl ⟨UInt64.le_iff_toNat_le.mp hq, cut_of_queryIndex_le hq⟩
  have hq' := UInt64.not_le.mp hq
  by_cases he : s.endOfFile ≤ readOff
  · exact .inr (.inl ⟨UInt64.lt_iff_toNat_lt.mp hq', UInt64.le_iff_toNat_le.mp he,
      cut_of_endOfFile_le hq' he⟩)
  have he' := UInt64.not_le.mp he
  exact .inr (.inr ⟨UInt64.lt_iff_toNat_lt.mp hq', UInt64.lt_iff_toNat_lt.mp he',
    cut_of_lt hq' he' hov⟩)

end Cut

/-! ## One call of `read_data` -/

theorem guard_eq_true {s : BinaryGraphStreamMT} (h : s.guard = true) :
    s.queryBlock = false ∧ s.streamOff < s.endOfFile ∧ s.streamOff < s.queryIndex := by
  simp only [guard, Bool.not_eq_true', Bool.or_eq_false_iff, decide_eq_false_iff_not,
    UInt64.not_le] at h
  exact ⟨h.1.1, h.1.2, h.2⟩

theorem guard_of_lt {s : BinaryGraphStreamMT} (hb : s.queryBlock = false)
    (he : s.streamOff < s.endOfFile) (hq : s.streamOff < s.queryIndex) : s.guard = true := by
  simp [guard, hb, UInt64.not_le.mpr he, UInt64.not_le.mpr hq]

theorem guard_eq_false {s : BinaryGraphStreamMT} (h : s.guard = false) :
    s.queryBlock = true ∨ s.endOfFile.toNat ≤ s.streamOff.toNat ∨
      s.queryIndex.toNat ≤ s.streamOff.toNat := by
  simp only [guard, Bool.not_eq_false', Bool.or_eq_true, decide_eq_true_eq] at h
  rcases h with (h | h) | h
  · exact .inl h
  · exact .inr (.inl (UInt64.le_iff_toNat_le.mp h))
  · exact .inr (.inr (UInt64.le_iff_toNat_le.mp h))

/-- **On a complete file the block is read.** With the `pread` of a regular
file that holds every byte its header announces, `read_data` returns within
two passes of its loop; it returns at most `buf_size`, and the bytes at the
start of the buffer are those of the file from `read_off`, the offset its
`fetch_add` took. -/
theorem readData_filePread (s : BinaryGraphStreamMT) (buf : List UInt8)
    (hfile : s.endOfFile.toNat ≤ s.streamFd.length)
    (hov : s.streamOff.toNat + s.bufSize.toNat < 2 ^ 64) (fuel : ℕ) :
    ∃ s' n buf', s.readData (filePread s.streamFd) buf (fuel + 2) = some (s', .ok (n, buf')) ∧
      n.toNat ≤ s.bufSize.toNat ∧
      buf'.take n.toNat = (s.streamFd.drop s.streamOff.toNat).take n.toNat := by
  rw [readData]
  split
  · next hg =>
    obtain ⟨-, he, hq⟩ := guard_eq_true hg
    obtain ⟨d, hcut, hd⟩ := cut_of_lt (s := s.fetchAdd.2) hq he hov
    rw [show s.fetchAdd.1 = s.streamOff from rfl, hcut]
    dsimp only
    have hend := UInt64.lt_iff_toNat_lt.mp he
    have hlen : s.streamOff.toNat + d.toNat ≤ s.streamFd.length := by
      simp only [fetchAdd] at hd
      omega
    have hsize : d.toNat ≤ s.bufSize.toNat := by
      simp only [fetchAdd] at hd
      omega
    have hn : d.toNat.toUInt32.toNat = d.toNat := by
      rw [Nat.toUInt32_eq, UInt32.toNat_ofNat', Nat.mod_eq_of_lt (hsize.trans_lt (UInt32.toNat_lt _))]
    rcases Nat.eq_zero_or_pos d.toNat with hzero | hpos
    · -- an empty block: the loop does not run
      rw [hzero, Loop.iterate_of_inr (by rw [preadStep, if_neg (Nat.lt_irrefl 0)])]
      exact ⟨_, _, _, rfl, by simp, by simp⟩
    · -- the first call reads the whole block
      have hread : filePread s.streamFd 0 d.toNat s.streamOff.toNat = some d.toNat := by
        rw [filePread, Nat.min_eq_left (by omega)]
      rw [iterate_preadStep_of_read buf hpos hread]
      refine ⟨_, _, _, rfl, by rw [hn]; exact hsize, ?_⟩
      dsimp only
      rw [hn, take_overwrite (by simp; omega), List.take_take, Nat.min_self]
  · exact ⟨_, _, _, rfl, by simp, by simp⟩

/-! ## Files shorter than their header, and short reads -/

/-- **`read_data` trusts its file and its reads.** A file whose header
announces one update but which ends after the header: the first block is
the nine bytes from 12, where a regular file has nothing, so `pread` reads
nothing, again and again, and `read_data` does not return, whatever the fuel. A
complete file of one update, read by a `pread` that POSIX allows and that
reads four bytes on its first call: the second call asks again for nine
bytes, from 16, gets the last five and writes them at the start of the
buffer, and `read_data` returns nine bytes that are not the record. -/
theorem read_data_unchecked :
    (∀ fuel, ∃ s, ofFile (toBytesLE 4 2 ++ toBytesLE 8 1) 9 = .ok s ∧
      s.readData (filePread s.streamFd) (List.replicate 9 0) fuel = none) ∧
    PreadBehaviour.Valid (toBytesLE 4 2 ++ toBytesLE 8 1 ++ StreamRecord.encode ⟨0, 0, 1⟩)
      (fun k count offset => some (min (if k = 0 then 4 else count) (min count (21 - offset)))) ∧
    ((ofFile (toBytesLE 4 2 ++ toBytesLE 8 1 ++ StreamRecord.encode ⟨0, 0, 1⟩) 9).toOption.bind
        fun s => (s.readData
          (fun k count offset => some (min (if k = 0 then 4 else count) (min count (21 - offset))))
          (List.replicate 9 0) 3).map fun r => r.2)
      = some (.ok (9, [0, 1, 0, 0, 0, 0, 0, 0, 0])) ∧
    ((toBytesLE 4 2 ++ toBytesLE 8 1 ++ StreamRecord.encode ⟨0, 0, 1⟩).drop 12).take 9
      ≠ [0, 1, 0, 0, 0, 0, 0, 0, 0] := by
  refine ⟨fun fuel => ⟨_, rfl, ?_⟩, fun k count offset r h => ?_, by decide, by decide⟩
  · -- the block is the nine bytes from 12, and the file has none of them
    rw [readData, if_pos (by decide)]
    exact congrArg (Option.map _)
      (iterate_preadStep_eq_none (by decide) (fun _ _ => rfl) fuel)
  · cases h
    simp only [List.length_append, length_toBytesLE, StreamRecord.length_encode]
    omega

end BinaryGraphStreamMT

end GraphZeppelin
