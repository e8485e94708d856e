import GraphZeppelin.Bytes
import GraphZeppelin.Types
import Mathlib.Data.Sym.Sym2

/-!
# Binary graph streams

The stream file format of `binary_graph_stream.h` starts with a header: four
bytes of node count and eight of update count. Then comes one record of
nine bytes per update, a type byte and the two node ids, in the byte order
of the host (little-endian here). `tools/to_binary_format` writes such a
file from a text stream. `BinaryGraphStream` reads it back one buffer at a
time; the buffer is the largest multiple of nine bytes not above the size
asked for.

The writer does not copy the types of its input. It keeps a triangular
matrix of the edges present and writes each update as a deletion exactly
when its edge is present. The file is then a consistent sequence of
insertions and deletions whatever the input said (`correctStream_eq`).

The reader returns the records in order for every buffer size
(`toBinaryFormat_decodes`). The invariant `Pending` says which records the
buffer and the rest of the file still hold; one call of `get_edge` keeps it
with one record fewer, whether or not it refills the buffer.

A truncated file is not detected. `read_data` throws only when a read fails
before the end of the file, and a read of a file fails only at its end, so
no call ever throws (`getEdges_ok`). A read past the end leaves the buffer
as it was, and the next calls decode its stale bytes
(`truncated_stream_repeats_record`).
-/

namespace GraphZeppelin

open Bytes

/-- The exceptions of the stream readers. -/
inductive StreamException
  /-- `BadStreamException`. -/
  | badStream
  /-- `StreamFailedException`. -/
  | streamFailed
  deriving DecidableEq, Repr

/-- The byte of an update type in a stream record, which `(UpdateType) *buf`
casts back. -/
def UpdateType.toByte : UpdateType → UInt8
  | .insert => 0
  | .delete => 1
  | .breakpoint => 2

/-! ## Records -/

/-- A record as `get_edge` decodes it: the type byte and the two node
ids. -/
structure StreamRecord where
  /-- The type byte, which `get_edge` casts to `UpdateType`. -/
  type : UInt8
  /-- `src`. -/
  src : UInt32
  /-- `dst`. -/
  dst : UInt32
  deriving DecidableEq, Repr

namespace StreamRecord

/-- The `edge_size` bytes of a record. -/
def encode (r : StreamRecord) : List UInt8 :=
  r.type :: (toBytesLE 4 r.src.toNat ++ toBytesLE 4 r.dst.toNat)

/-- The record at the front of a buffer: `*buf`, and the `memcpy`s from
`buf + 1` and `buf + 5`. -/
def decode (bytes : List UInt8) : StreamRecord where
  type := bytes.headD 0
  src := (ofBytesLE ((bytes.drop 1).take 4)).toUInt32
  dst := (ofBytesLE ((bytes.drop 5).take 4)).toUInt32

@[simp] theorem length_encode (r : StreamRecord) : r.encode.length = 9 := by
  rw [encode, List.length_cons, List.length_append, length_toBytesLE, length_toBytesLE]

/-- A record is read back from its bytes, whatever follows them. -/
theorem decode_encode (r : StreamRecord) (more : List UInt8) : decode (r.encode ++ more) = r := by
  have hsrc : r.src.toNat < 256 ^ 4 := r.src.toNat_lt
  have hdst : r.dst.toNat < 256 ^ 4 := r.dst.toNat_lt
  have hlen := length_toBytesLE 4 r.src.toNat
  have hlen' := length_toBytesLE 4 r.dst.toNat
  -- the two ids start one byte and five bytes in
  have h1 : ((r.encode ++ more).drop 1).take 4 = toBytesLE 4 r.src.toNat := by
    rw [encode, List.cons_append, List.drop_succ_cons, List.drop_zero, List.append_assoc,
      List.take_append_of_le_length hlen.ge, List.take_of_length_le hlen.le]
  have h5 : ((r.encode ++ more).drop 5).take 4 = toBytesLE 4 r.dst.toNat := by
    rw [encode, List.cons_append, List.drop_succ_cons, List.append_assoc, List.drop_left' hlen,
      List.take_append_of_le_length hlen'.ge, List.take_of_length_le hlen'.le]
  rw [decode, h1, h5, ofBytesLE_toBytesLE_of_lt hsrc, ofBytesLE_toBytesLE_of_lt hdst]
  simp [encode]

/-- A record is read from its nine bytes alone. -/
theorem decode_take (bytes : List UInt8) {k : ℕ} (hk : 9 ≤ k) :
    decode (bytes.take k) = decode bytes := by
  have h1 : ((bytes.take k).drop 1).take 4 = (bytes.drop 1).take 4 := by
    rw [List.drop_take, List.take_take, Nat.min_eq_left (by omega)]
  have h5 : ((bytes.take k).drop 5).take 4 = (bytes.drop 5).take 4 := by
    rw [List.drop_take, List.take_take, Nat.min_eq_left (by omega)]
  have hhead : (bytes.take k).headD 0 = bytes.headD 0 := by
    cases bytes with
    | nil => rw [List.take_nil]
    | cons b rest =>
      obtain ⟨k', rfl⟩ : ∃ k', k = k' + 1 := ⟨k - 1, by omega⟩
      rfl
  rw [decode, decode, h1, h5, hhead]

end StreamRecord

/-! ## The reader -/

/-- **`BinaryGraphStream`**: the file, its buffer and the position of
`get_edge` in it. -/
structure BinaryGraphStream where
  /-- `bin_file`. -/
  binFile : InStream
  /-- The `buf_size` bytes from `start_buf`. -/
  buf : List UInt8
  /-- `buf - start_buf`. -/
  cursor : ℕ
  /-- `buf_size`. -/
  bufSize : ℕ
  /-- `num_nodes`. -/
  numNodes : UInt32
  /-- `num_edges`. -/
  numEdges : UInt64

namespace BinaryGraphStream

/-- `read_data`: the buffer refilled from its start. Only a failure that is
not at the end of the file throws. -/
def readData (s : BinaryGraphStream) : Except StreamException BinaryGraphStream :=
  let r := s.binFile.read s.bufSize
  if r.2.fail && !r.2.eof then .error .streamFailed
  else .ok { s with binFile := r.2, buf := overwrite s.buf r.1, cursor := 0 }

/-- The constructor `BinaryGraphStream(file_name, _b)`, on the bytes of the
file it opens. `mem` is what the buffer that `malloc` returns holds. The
header is read into `num_nodes` and `num_edges`, which start indeterminate
and are read over zero here; a file of twelve bytes or more overwrites
them. -/
def ofFile (file : List UInt8) (b : UInt32) (mem : ℕ → UInt8) :
    Except StreamException BinaryGraphStream :=
  -- `buf_size = _b - (_b % edge_size)`
  let bufSize := (b - b % 9).toNat
  let n := InStream.readLE 4 0 ⟨file, false, false⟩
  let m := n.2.readLE 8 0
  readData
    { binFile := m.2
      buf := (List.range bufSize).map mem
      cursor := 0
      bufSize := bufSize
      numNodes := n.1.toUInt32
      numEdges := m.1.toUInt64 }

/-- `nodes()`. -/
def nodes (s : BinaryGraphStream) : UInt32 := s.numNodes

/-- `edges()`. -/
def edges (s : BinaryGraphStream) : UInt64 := s.numEdges

/-- `get_edge`: the record at the cursor. The buffer is refilled when the
cursor reaches its end. -/
def getEdge (s : BinaryGraphStream) : Except StreamException (BinaryGraphStream × StreamRecord) :=
  let r := StreamRecord.decode ((s.buf.drop s.cursor).take 9)
  let s := { s with cursor := s.cursor + 9 }
  if s.cursor = s.bufSize then s.readData.map fun s => (s, r) else .ok (s, r)

/-- The first `k` calls of `get_edge`, and the records they return. -/
def getEdges : ℕ → BinaryGraphStream →
    Except StreamException (BinaryGraphStream × List StreamRecord)
  | 0, s => .ok (s, [])
  | k + 1, s => do
    let (s, r) ← s.getEdge
    let (s, rs) ← getEdges k s
    pure (s, r :: rs)

/-! ### What a refill does -/

/-- A refill of a stream whose reads fail only at the end of the file does
not throw. -/
theorem readData_of_failsAtEof {s : BinaryGraphStream} (h : s.binFile.FailsAtEof) :
    s.readData = .ok { s with
      binFile := (s.binFile.read s.bufSize).2
      buf := overwrite s.buf (s.binFile.read s.bufSize).1
      cursor := 0 } := by
  have hf := h.read s.bufSize
  rw [readData, if_neg]
  cases hfail : (s.binFile.read s.bufSize).2.fail
  · simp
  · simp [hf hfail]

/-- A call of `get_edge` refills exactly when its cursor reaches the end of
the buffer. -/
theorem getEdge_eq (s : BinaryGraphStream) :
    s.getEdge = if s.cursor + 9 = s.bufSize then
        (readData { s with cursor := s.cursor + 9 }).map
          fun s' => (s', StreamRecord.decode ((s.buf.drop s.cursor).take 9))
      else .ok ({ s with cursor := s.cursor + 9 },
        StreamRecord.decode ((s.buf.drop s.cursor).take 9)) := rfl

theorem getEdges_succ (k : ℕ) (s : BinaryGraphStream) :
    s.getEdges (k + 1) = s.getEdge.bind fun p =>
      (getEdges k p.1).bind fun q => .ok (q.1, p.2 :: q.2) := rfl

/-! ### No call throws -/

/-- `get_edge` keeps the reads of the file failing only at its end, and
then does not throw. -/
theorem getEdge_of_failsAtEof {s : BinaryGraphStream} (h : s.binFile.FailsAtEof) :
    ∃ s' r, s.getEdge = .ok (s', r) ∧ s'.binFile.FailsAtEof := by
  rw [getEdge_eq]
  split
  · rw [readData_of_failsAtEof (s := { s with cursor := s.cursor + 9 }) h]
    exact ⟨_, _, rfl, h.read _⟩
  · exact ⟨_, _, rfl, h⟩

theorem getEdges_of_failsAtEof :
    ∀ (k : ℕ) {s : BinaryGraphStream}, s.binFile.FailsAtEof → ∃ r, s.getEdges k = .ok r
  | 0, _, _ => ⟨_, rfl⟩
  | k + 1, s, h => by
    obtain ⟨s', r, hs, h'⟩ := getEdge_of_failsAtEof h
    obtain ⟨q, hq⟩ := getEdges_of_failsAtEof k h'
    exact ⟨_, by rw [getEdges_succ, hs, Except.bind, hq]; rfl⟩

/-- The constructor reads the header and refills, and so does not throw;
the header fields and the buffer size are those it computed. -/
theorem ofFile_eq (file : List UInt8) (b : UInt32) (mem : ℕ → UInt8) :
    ∃ s, ofFile file b mem = .ok s ∧ s.binFile.FailsAtEof ∧ s.cursor = 0 ∧
      s.bufSize = (b - b % 9).toNat ∧
      s.numNodes = (InStream.readLE 4 0 ⟨file, false, false⟩).1.toUInt32 ∧
      s.numEdges = ((InStream.readLE 4 0 ⟨file, false, false⟩).2.readLE 8 0).1.toUInt64 := by
  have h : InStream.FailsAtEof
      ((InStream.readLE 4 0 ⟨file, false, false⟩).2.readLE 8 0).2 := by
    rw [InStream.readLE_snd, InStream.readLE_snd]
    exact ((InStream.failsAtEof_mk file).read 4).read 8
  rw [ofFile, readData_of_failsAtEof h]
  exact ⟨_, rfl, h.read _, rfl, rfl, rfl, rfl⟩

/-- **No call throws**: for every file and every buffer size, the
constructor and any number of calls of `get_edge` return. -/
theorem getEdges_ok (file : List UInt8) (b : UInt32) (mem : ℕ → UInt8) (k : ℕ) :
    ∃ s, ofFile file b mem = .ok s ∧ ∃ r, s.getEdges k = .ok r := by
  obtain ⟨s, hs, h, -⟩ := ofFile_eq file b mem
  exact ⟨s, hs, getEdges_of_failsAtEof k h⟩

/-! ### The records a stream has still to return -/

/-- **The records the stream has still to return** are `L`. From the
cursor, the buffer holds as many of them as fit before its end. When not
all fit, the file is good and holds exactly the others. -/
structure Pending (s : BinaryGraphStream) (L : List StreamRecord) : Prop where
  size_dvd : 9 ∣ s.bufSize
  cursor_dvd : 9 ∣ s.cursor
  cursor_lt : s.cursor < s.bufSize
  buffered : ∃ junk, s.buf.drop s.cursor
    = (L.take ((s.bufSize - s.cursor) / 9)).flatMap StreamRecord.encode ++ junk
  file : (s.bufSize - s.cursor) / 9 < L.length →
    s.binFile = ⟨(L.drop ((s.bufSize - s.cursor) / 9)).flatMap StreamRecord.encode, false, false⟩
  failsAtEof : s.binFile.FailsAtEof

/-- **A refill** from a file that holds the records `L`, or with nothing
left to return, leaves `L` pending from the start of the buffer. -/
theorem pending_readData {s : BinaryGraphStream} {L : List StreamRecord}
    (hsize : 9 ∣ s.bufSize) (hpos : 0 < s.bufSize)
    (hfile : s.binFile = ⟨L.flatMap StreamRecord.encode, false, false⟩ ∨
      (L = [] ∧ s.binFile.FailsAtEof)) :
    ∃ s', s.readData = .ok s' ∧ Pending s' L := by
  have hsane : s.binFile.FailsAtEof := by
    rcases hfile with h | ⟨-, h⟩
    · rw [h]
      exact InStream.failsAtEof_mk _
    · exact h
  rw [readData_of_failsAtEof hsane]
  refine ⟨_, rfl, ?_⟩
  have hlen := Bytes.length_flatMap_of_length StreamRecord.length_encode L
  obtain ⟨k, hk⟩ := hsize
  have hroom : (s.bufSize - 0) / 9 = k := by omega
  rcases hfile with h | ⟨rfl, -⟩
  · by_cases hle : s.bufSize ≤ (L.flatMap StreamRecord.encode).length
    · -- a whole buffer of records, and the file left good after them
      rw [h, InStream.read_of_le rfl hle]
      refine ⟨⟨k, hk⟩, dvd_zero 9, hpos,
        ⟨s.buf.drop ((L.flatMap StreamRecord.encode).take s.bufSize).length, ?_⟩, fun _ => ?_,
        InStream.failsAtEof_mk _⟩
      · rw [hroom, List.drop_zero, overwrite, hk,
          Bytes.take_flatMap_of_length StreamRecord.length_encode]
      · rw [hroom, hk, Bytes.drop_flatMap_of_length StreamRecord.length_encode]
    · -- the end of the file comes first: every record left is in the buffer
      rw [h, InStream.read_of_lt rfl (Nat.lt_of_not_le hle)]
      have htake : L.take k = L := List.take_of_length_le (by omega)
      refine ⟨⟨k, hk⟩, dvd_zero 9, hpos, ⟨s.buf.drop (L.flatMap StreamRecord.encode).length, ?_⟩,
        fun hlt => ?_, fun _ => rfl⟩
      · rw [hroom, htake, List.drop_zero, overwrite]
      · rw [hroom] at hlt
        omega
  · exact ⟨⟨k, hk⟩, dvd_zero 9, hpos, ⟨_, by rw [List.take_nil, List.flatMap_nil,
      List.nil_append]⟩, fun hlt => absurd hlt (Nat.not_lt_zero _), hsane.read _⟩

/-- **One call of `get_edge`** returns the first pending record, and leaves
the others pending. -/
theorem Pending.getEdge {s : BinaryGraphStream} {r : StreamRecord} {L : List StreamRecord}
    (h : Pending s (r :: L)) : ∃ s', s.getEdge = .ok (s', r) ∧ Pending s' L := by
  obtain ⟨hsize, hcur, hlt, ⟨junk, hbuf⟩, hfile, hsane⟩ := h
  have hroom : 1 ≤ (s.bufSize - s.cursor) / 9 := by omega
  -- the buffer holds `r` at the cursor, then the records that fit after it
  have hbuf' : s.buf.drop s.cursor = r.encode ++
      ((L.take ((s.bufSize - s.cursor) / 9 - 1)).flatMap StreamRecord.encode ++ junk) := by
    rw [hbuf, ← Nat.sub_add_cancel hroom, List.take_succ_cons, List.flatMap_cons,
      Nat.add_sub_cancel, List.append_assoc]
  have hdec : StreamRecord.decode ((s.buf.drop s.cursor).take 9) = r := by
    rw [hbuf', List.take_append_of_le_length (StreamRecord.length_encode r).ge,
      List.take_of_length_le (StreamRecord.length_encode r).le, ← List.append_nil r.encode,
      StreamRecord.decode_encode]
  rw [getEdge_eq, hdec]
  split
  · -- the last record of the buffer: refill from the file
    rename_i hend
    have hroom1 : (s.bufSize - s.cursor) / 9 = 1 := by omega
    have hfile' : s.binFile = ⟨L.flatMap StreamRecord.encode, false, false⟩ ∨
        (L = [] ∧ s.binFile.FailsAtEof) := by
      cases L with
      | nil => exact .inr ⟨rfl, hsane⟩
      | cons r' L' =>
        have hmore : (s.bufSize - s.cursor) / 9 < (r :: r' :: L').length := by
          simp only [List.length_cons]
          omega
        refine .inl ?_
        rw [hfile hmore, hroom1, List.drop_one, List.tail_cons]
    obtain ⟨s', hs', hp⟩ := pending_readData (s := { s with cursor := s.cursor + 9 }) hsize
      (show 0 < s.bufSize by omega) hfile'
    rw [hs']
    exact ⟨s', rfl, hp⟩
  · -- the cursor moves to the next record of the buffer
    rename_i hend
    refine ⟨_, rfl, hsize, Nat.dvd_add hcur (dvd_refl 9), by dsimp only; omega, ⟨junk, ?_⟩,
      fun hlen => ?_, hsane⟩
    · dsimp only
      rw [← List.drop_drop, hbuf', List.drop_left' (StreamRecord.length_encode r)]
      congr 3
      omega
    · dsimp only at hlen ⊢
      have hroom' : (s.bufSize - (s.cursor + 9)) / 9 = (s.bufSize - s.cursor) / 9 - 1 := by
        omega
      rw [hroom'] at hlen ⊢
      have hmore : (s.bufSize - s.cursor) / 9 < (r :: L).length := by
        simp only [List.length_cons]
        omega
      rw [hfile hmore, ← Nat.sub_add_cancel hroom,
        List.drop_succ_cons, Nat.add_sub_cancel]

/-- **The pending records are returned in order**, one per call. -/
theorem Pending.getEdges : ∀ {L : List StreamRecord} {s : BinaryGraphStream},
    Pending s L → ∃ s', s.getEdges L.length = .ok (s', L)
  | [], _, _ => ⟨_, rfl⟩
  | r :: L, s, h => by
    obtain ⟨s₁, hs₁, h₁⟩ := h.getEdge
    obtain ⟨s', hs'⟩ := Pending.getEdges h₁
    exact ⟨s', by rw [List.length_cons, getEdges_succ, hs₁, Except.bind, hs']; rfl⟩

/-- **A well-formed file**: the header is read back, and every record of
the file is pending. -/
theorem ofFile_pending (num_nodes : UInt32) (num_edges : UInt64) (L : List StreamRecord)
    {b : UInt32} (hb : 9 ≤ b.toNat) (mem : ℕ → UInt8) :
    ∃ s, ofFile (toBytesLE 4 num_nodes.toNat ++ toBytesLE 8 num_edges.toNat ++
        L.flatMap StreamRecord.encode) b mem = .ok s ∧
      s.nodes = num_nodes ∧ s.edges = num_edges ∧ Pending s L := by
  have hsize : (b - b % 9).toNat = b.toNat - b.toNat % 9 := by
    have hle : b % 9 ≤ b := UInt32.le_iff_toNat_le.mpr (by
      rw [UInt32.toNat_mod]
      exact Nat.mod_le _ _)
    rw [UInt32.toNat_sub_of_le _ _ hle, UInt32.toNat_mod]
    rfl
  have hn := InStream.readLE_toBytesLE 0 (toBytesLE 8 num_edges.toNat ++
    L.flatMap StreamRecord.encode) (show num_nodes.toNat < 256 ^ 4 from num_nodes.toNat_lt)
  have hm := InStream.readLE_toBytesLE 0 (L.flatMap StreamRecord.encode)
    (show num_edges.toNat < 256 ^ 8 from num_edges.toNat_lt)
  rw [List.append_assoc, ofFile, hn]
  dsimp only
  rw [hm]
  obtain ⟨s, hs, hp⟩ := pending_readData
    (s :=
      { binFile := ⟨L.flatMap StreamRecord.encode, false, false⟩
        buf := (List.range (b - b % 9).toNat).map mem
        cursor := 0
        bufSize := (b - b % 9).toNat
        numNodes := num_nodes.toNat.toUInt32
        numEdges := num_edges.toNat.toUInt64 })
    (by dsimp only; omega) (by dsimp only; omega) (.inl rfl)
  refine ⟨s, hs, ?_, ?_, hp⟩
  · rw [readData_of_failsAtEof (InStream.failsAtEof_mk _)] at hs
    cases hs
    exact UInt32.ofNat_toNat
  · rw [readData_of_failsAtEof (InStream.failsAtEof_mk _)] at hs
    cases hs
    exact UInt64.ofNat_toNat

/-- **A truncated stream repeats a record.** The header announces two
updates and the file holds one. With a buffer of nine bytes, the first call
of `get_edge` returns the record and refills the buffer: the read finds the
end of the file, sets `eofbit` with `failbit`, does not throw and leaves the
buffer as it was. The second call returns the same record again. -/
theorem truncated_stream_repeats_record :
    (toBytesLE 4 3 ++ toBytesLE 8 2 ++ StreamRecord.encode ⟨0, 0, 1⟩).length < 12 + 9 * 2 ∧
      ((ofFile (toBytesLE 4 3 ++ toBytesLE 8 2 ++ StreamRecord.encode ⟨0, 0, 1⟩) 9
          fun _ => 0).bind fun s => (s.getEdges 2).map fun r => (s.edges, r.2))
        = .ok (2, [⟨0, 0, 1⟩, ⟨0, 0, 1⟩]) := by
  constructor <;> decide

end BinaryGraphStream

/-! ## The writer -/

/-- Where `to_binary_format` keeps the edge of `src dst` in its triangular
matrix: the row of the smaller end, and the column of the difference. -/
def matrixIndex (src dst : UInt32) : ℕ × ℕ :=
  if src > dst then (dst.toNat, src.toNat - dst.toNat) else (src.toNat, dst.toNat - src.toNat)

/-- One iteration of the loop of `to_binary_format`: the type it writes,
which is whether the edge is present, and the matrix with the edge toggled.
The type read from the input is overwritten. -/
def correctUpdate (adj_mat : ℕ → ℕ → Bool) (src dst : UInt32) : Bool × (ℕ → ℕ → Bool) :=
  let i := (matrixIndex src dst).1
  let j := (matrixIndex src dst).2
  (adj_mat i j, Function.update adj_mat i (Function.update (adj_mat i) j !(adj_mat i j)))

/-- The loop of `to_binary_format`: the record each update is written as,
with the byte of the `bool` it computed as its type. -/
def correctStream : (ℕ → ℕ → Bool) → List (UInt32 × UInt32) → List StreamRecord
  | _, [] => []
  | adj_mat, (src, dst) :: updates =>
    let c := correctUpdate adj_mat src dst
    ⟨if c.1 then 1 else 0, src, dst⟩ :: correctStream c.2 updates

/-- `tools/to_binary_format` on a text stream whose header is
`num_nodes num_edges` and whose updates parse to the pairs `src dst` (the
types that `--update_type` reads are overwritten): the header, then the
corrected records. -/
def toBinaryFormat (num_nodes : UInt32) (num_edges : UInt64)
    (updates : List (UInt32 × UInt32)) : List UInt8 :=
  toBytesLE 4 num_nodes.toNat ++ toBytesLE 8 num_edges.toNat ++
    (correctStream (fun _ _ => false) updates).flatMap StreamRecord.encode

/-- **The consistent type of an update**: a deletion exactly when its edge,
unordered, occurs an odd number of times among the updates before it. -/
def consistentType (before : List (UInt32 × UInt32)) (src dst : UInt32) : UpdateType :=
  if before.countP (fun e => s(e.1, e.2) = s(src, dst)) % 2 = 1 then .delete else .insert

/-- The matrix of the edges that an odd number of the updates `before`
toggled. -/
def presentMatrix (before : List (UInt32 × UInt32)) (i j : ℕ) : Bool :=
  decide (before.countP (fun e => matrixIndex e.1 e.2 = (i, j)) % 2 = 1)

/-- The matrix index names the unordered edge. -/
theorem matrixIndex_eq_iff {a b c d : UInt32} :
    matrixIndex a b = matrixIndex c d ↔ s(a, b) = s(c, d) := by
  simp only [matrixIndex, Sym2.eq_iff, ← UInt32.toNat_inj, gt_iff_lt, UInt32.lt_iff_toNat_lt]
  split_ifs <;> simp only [Prod.mk.injEq] <;> omega

/-- The matrix entry of an edge is the parity of its occurrences. -/
theorem presentMatrix_matrixIndex (before : List (UInt32 × UInt32)) (src dst : UInt32) :
    presentMatrix before (matrixIndex src dst).1 (matrixIndex src dst).2
      = decide (before.countP (fun e => s(e.1, e.2) = s(src, dst)) % 2 = 1) := by
  rw [presentMatrix, Prod.mk.eta]
  congr 3
  exact List.countP_congr fun e _ => by simp only [decide_eq_true_iff, matrixIndex_eq_iff]

/-- **One iteration** writes whether the edge is present, and toggles
it. -/
theorem correctUpdate_presentMatrix (before : List (UInt32 × UInt32)) (src dst : UInt32) :
    correctUpdate (presentMatrix before) src dst =
      (presentMatrix before (matrixIndex src dst).1 (matrixIndex src dst).2,
        presentMatrix (before ++ [(src, dst)])) := by
  refine Prod.ext rfl (funext fun i => funext fun j => ?_)
  rcases hm : matrixIndex src dst with ⟨a, b⟩
  simp only [correctUpdate, hm, presentMatrix, Function.update_apply, List.countP_append,
    List.countP_cons, List.countP_nil, Prod.mk.injEq]
  by_cases hi : i = a
  · by_cases hj : j = b
    · -- the toggled entry: one more occurrence flips the parity
      subst hi hj
      rcases Nat.mod_two_eq_zero_or_one (before.countP fun e => matrixIndex e.1 e.2 = (i, j))
        with h | h <;> simp [h, Nat.add_mod]
    · -- every other entry keeps its parity
      simp [hi, hj, Ne.symm hj, presentMatrix]
  · simp [hi, Ne.symm hi, presentMatrix]

/-- **The writer's types are the consistent ones**: from the matrix of the
updates `before`, the loop writes each update with its consistent type given
everything before it. -/
theorem correctStream_eq (before updates : List (UInt32 × UInt32)) :
    correctStream (presentMatrix before) updates = updates.mapIdx fun k e =>
      ⟨(consistentType (before ++ updates.take k) e.1 e.2).toByte, e.1, e.2⟩ := by
  induction updates generalizing before with
  | nil => rfl
  | cons e updates ih =>
    obtain ⟨src, dst⟩ := e
    have hbyte : (if presentMatrix before (matrixIndex src dst).1 (matrixIndex src dst).2
        then (1 : UInt8) else 0) = (consistentType before src dst).toByte := by
      rw [presentMatrix_matrixIndex, consistentType]
      by_cases hodd : before.countP (fun e => s(e.1, e.2) = s(src, dst)) % 2 = 1
      · rw [if_pos hodd, decide_eq_true hodd]
        rfl
      · rw [if_neg hodd, decide_eq_false hodd]
        rfl
    rw [correctStream, correctUpdate_presentMatrix, ih, List.mapIdx_cons]
    simp only [List.take_zero, List.append_nil, List.take_succ_cons, List.append_assoc,
      List.singleton_append, hbyte]

/-- **Every file `to_binary_format` writes is read back**: for every buffer
size of at least one record, the reader finds the header, and its calls of
`get_edge` return the updates in order, each with its consistent type. -/
theorem toBinaryFormat_decodes (num_nodes : UInt32) (num_edges : UInt64)
    (updates : List (UInt32 × UInt32)) (hm : updates.length = num_edges.toNat)
    {b : UInt32} (hb : 9 ≤ b.toNat) (mem : ℕ → UInt8) :
    ∃ s, BinaryGraphStream.ofFile (toBinaryFormat num_nodes num_edges updates) b mem = .ok s ∧
      s.nodes = num_nodes ∧ s.edges = num_edges ∧
      ∃ s', s.getEdges num_edges.toNat = .ok (s', updates.mapIdx fun k e =>
        ⟨(consistentType (updates.take k) e.1 e.2).toByte, e.1, e.2⟩) := by
  have hL : correctStream (fun _ _ => false) updates = updates.mapIdx fun k e =>
      ⟨(consistentType (updates.take k) e.1 e.2).toByte, e.1, e.2⟩ := by
    rw [show (fun _ _ => false : ℕ → ℕ → Bool) = presentMatrix [] from rfl, correctStream_eq]
    simp only [List.nil_append]
  obtain ⟨s, hs, hn, he, hp⟩ := BinaryGraphStream.ofFile_pending num_nodes num_edges
    (correctStream (fun _ _ => false) updates) hb mem
  rw [hL] at hp
  obtain ⟨s', hs'⟩ := hp.getEdges
  rw [List.length_mapIdx, hm] at hs'
  exact ⟨s, hs, hn, he, s', hs'⟩

/-- An edge inserted and then given again in the other direction: with a
buffer of one record, the file is read back with the second update a
deletion. -/
theorem toBinaryFormat_decodes_reinsert :
    [((0 : UInt32), (1 : UInt32)), (1, 0)].length = (2 : UInt64).toNat ∧ 9 ≤ (9 : UInt32).toNat ∧
      ∃ s, BinaryGraphStream.ofFile (toBinaryFormat 3 2 [(0, 1), (1, 0)]) 9 (fun _ => 0) = .ok s ∧
        s.nodes = 3 ∧ s.edges = 2 ∧
        ∃ s', s.getEdges (2 : UInt64).toNat = .ok (s', [(0, 1), (1, 0)].mapIdx fun k e =>
          ⟨(consistentType ([(0, 1), (1, 0)].take k) e.1 e.2).toByte, e.1, e.2⟩) :=
  ⟨by decide, by decide, toBinaryFormat_decodes 3 2 _ (by decide) (by decide) _⟩

end GraphZeppelin
