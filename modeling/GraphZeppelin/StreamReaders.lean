import GraphZeppelin.BinaryStreamMT
import Mathlib.Algebra.BigOperators.Group.Finset.Basic
import Mathlib.Algebra.Order.BigOperators.Group.Finset
import Mathlib.Logic.Relation
import Mathlib.Tactic.Abel

/-!
# Threads reading one query segment

Every `MT_StreamReader` thread calls `read_data` when its buffer is used up,
and `get_edge` returns `BREAKPOINT` when `read_data` returns `0`. The
threads of one segment, the updates between two queries, run `read_data`
interleaved: the guard, the `fetch_add`, the checks after it with their
stores into `stream_off`, and the loop of `pread` calls are each one atomic
step of one thread (`Readers.Step`).

The accounting is on the blocks that start below the end of the segment,
`min(query_index, end_of_file)`. The `fetch_add`s hand them out in order
from the start of the segment, and every one handed out is held by exactly
one thread or has been returned (`Readers.Inv.held`, a multiset equation).
When every thread has returned `BREAKPOINT`, no thread holds a block, so the
returned blocks are those blocks, each once, and hold the records up to the
end of the segment (`segment_reads_each_record_once`).

Where `stream_off` ends depends on where the query is. A `fetch_add` that
takes `stream_off` past the query leaves a thread that will store the query
back into it (`Readers.Inv.witness`). Past the end of the file the checks
return without that store, so for a query past the last record the next
segment starts at the end of the file and not at the query
(`segment_ends_past_query`).
-/

namespace GraphZeppelin

open BinaryGraphStreamMT

/-! ## Counting over the threads -/

/-- Changing the value of one thread changes a sum over the threads by the
two values. -/
theorem sum_update_add {ι α β : Type*} [Fintype ι] [DecidableEq ι] [AddCommMonoid β]
    (g : α → β) (f : ι → α) (t : ι) (v : α) :
    ∑ s, g (Function.update f t v s) + g (f t) = ∑ s, g (f s) + g v := by
  have hrest : ∑ s ∈ Finset.univ.erase t, g (Function.update f t v s)
      = ∑ s ∈ Finset.univ.erase t, g (f s) :=
    Finset.sum_congr rfl fun s hs => by rw [Function.update_of_ne (Finset.ne_of_mem_erase hs)]
  rw [← Finset.add_sum_erase _ _ (Finset.mem_univ t),
    ← Finset.add_sum_erase _ (fun s => g (f s)) (Finset.mem_univ t), hrest, Function.update_self]
  abel

/-! ## Blocks and records -/

/-- **Consecutive blocks hold consecutive records.** The blocks of `b` bytes
from `S`, each cut at `m`, hold the records of `9` bytes from `S` to `m`,
each once, when `b` and `m - S` are whole numbers of records and the blocks
reach `m`. -/
theorem flatMap_blocks {b m : ℕ} (hb : b % 9 = 0) :
    ∀ (j S : ℕ), (m - S) % 9 = 0 → m ≤ S + b * j →
      ((List.range j).map fun i => S + b * i).flatMap
          (fun r => List.range' r (min b (m - r) / 9) 9)
        = List.range' S ((m - S) / 9) 9
  | 0, S, _, hm => by
    have hzero : m - S = 0 := by omega
    simp [hzero]
  | j + 1, S, hS, hm => by
    have hshift : ((List.range (j + 1)).map fun i => S + b * i)
        = S :: (List.range j).map fun i => S + b + b * i := by
      rw [List.range_succ_eq_map, List.map_cons, List.map_map, Nat.mul_zero, Nat.add_zero]
      congr 1
      refine List.map_congr_left fun i _ => ?_
      show S + b * (i + 1) = S + b + b * i
      rw [Nat.mul_succ]
      omega
    have hrest := @flatMap_blocks b m hb j (S + b) (by omega) (by rw [Nat.mul_succ] at hm; omega)
    rw [hshift, List.flatMap_cons, hrest]
    by_cases hle : m - S ≤ b
    · -- the first block reaches `m`
      rw [Nat.min_eq_right hle, show m - (S + b) = 0 by omega, Nat.zero_div, List.range'_zero,
        List.append_nil]
    · have hsplit := @List.range'_append S (b / 9) ((m - (S + b)) / 9) 9
      rw [show S + 9 * (b / 9) = S + b by omega] at hsplit
      rw [Nat.min_eq_left (by omega), hsplit]
      congr 1
      omega

namespace BinaryGraphStreamMT

/-- Where the threads of a segment stop: the registered query, or the end of
the file. -/
def segmentEnd (s : BinaryGraphStreamMT) : ℕ := min s.queryIndex.toNat s.endOfFile.toNat

theorem streamOff_fetchAdd {s : BinaryGraphStreamMT}
    (hov : s.streamOff.toNat + s.bufSize.toNat < 2 ^ 64) :
    s.fetchAdd.2.streamOff.toNat = s.streamOff.toNat + s.bufSize.toNat := by
  show (s.streamOff + s.bufSize.toUInt64).toNat = _
  rw [UInt64.toNat_add, UInt32.toNat_toUInt64, Nat.mod_eq_of_lt hov]

/-- A stream that differs from `s₀` only in `stream_off` still does after
another store into `stream_off`. -/
theorem with_streamOff {s₀ s : BinaryGraphStreamMT} (h : s = { s₀ with streamOff := s.streamOff })
    (x : UInt64) : { s with streamOff := x } = { s₀ with streamOff := x } := by
  rw [h]

/-- The blocks of `b` bytes from `stream_off` that start below `m`. -/
def blocksLeft (m b : ℕ) (s : BinaryGraphStreamMT) : ℕ := (m - s.streamOff.toNat + b - 1) / b

theorem blocksLeft_of_le {m b : ℕ} (hb : 0 < b) {s : BinaryGraphStreamMT}
    (h : m ≤ s.streamOff.toNat) : blocksLeft m b s = 0 := by
  unfold blocksLeft
  rw [Nat.sub_eq_zero_of_le h, Nat.zero_add]
  exact Nat.div_eq_of_lt (by omega)

/-- A block below `m` handed out leaves one block less. -/
theorem blocksLeft_add {m b : ℕ} (hb : 0 < b) {s : BinaryGraphStreamMT}
    (h : s.streamOff.toNat < m) (s' : BinaryGraphStreamMT)
    (h' : s'.streamOff.toNat = s.streamOff.toNat + b) :
    blocksLeft m b s' + 1 = blocksLeft m b s := by
  unfold blocksLeft
  rw [h']
  by_cases hx : b ≤ m - s.streamOff.toNat
  · have hsum : m - (s.streamOff.toNat + b) + b - 1 + b = m - s.streamOff.toNat + b - 1 := by
      omega
    rw [← hsum, Nat.add_div_right _ hb]
  · -- the last block below `m`
    have h0 : (m - (s.streamOff.toNat + b) + b - 1) / b = 0 := Nat.div_eq_of_lt (by omega)
    have h1 : (m - s.streamOff.toNat + b - 1) / b = 1 :=
      Nat.div_eq_of_lt_le (by omega) (by omega)
    rw [h0, h1]

/-- The checks store nothing but the query into `stream_off`, so they leave
no more blocks below an `m` up to the query. -/
theorem blocksLeft_cut {m b : ℕ} (hb : 0 < b) {s : BinaryGraphStreamMT}
    (hQ : m ≤ s.queryIndex.toNat) (r : UInt64) :
    blocksLeft m b (s.cut r).1 ≤ blocksLeft m b s := by
  have hstore : blocksLeft m b { s with streamOff := s.queryIndex } = 0 := blocksLeft_of_le hb hQ
  unfold cut
  split
  · rw [hstore]
    exact Nat.zero_le _
  · split
    · exact le_rfl
    · dsimp only
      split
      · rw [hstore]
        exact Nat.zero_le _
      · exact le_rfl

end BinaryGraphStreamMT

/-! ## The threads -/

/-- Where a reader thread is in `get_edge`, between two of its atomic steps. -/
inductive ReaderPhase
  /-- Its buffer is used up: the guard of `read_data` comes next. -/
  | idle
  /-- Past the guard, before the `fetch_add`. -/
  | fetching
  /-- The `fetch_add` gave `read_off`; the checks come next. -/
  | cutting (readOff : UInt64)
  /-- About to read `data_to_read` bytes from `read_off`. -/
  | reading (readOff dataToRead : UInt64)
  /-- `read_data` returned `0`, and `get_edge` `BREAKPOINT`. -/
  | breakpoint
  deriving DecidableEq, Repr

namespace ReaderPhase

/-- The `read_off` of the block the thread took and has neither dropped nor
returned. -/
def owned : ReaderPhase → Option UInt64
  | cutting r => some r
  | reading r _ => some r
  | _ => none

/-- The block the thread holds, if it starts below `m`. -/
def heldBelow (m : ℕ) (p : ReaderPhase) : Multiset ℕ :=
  ((p.owned.toList.map UInt64.toNat).filter (· < m) : List ℕ)

/-- `1` for a thread past the guard that has not taken its block. -/
def pending : ReaderPhase → ℕ
  | fetching => 1
  | _ => 0

theorem heldBelow_of_owned {p : ReaderPhase} (h : p.owned = none) (m : ℕ) : p.heldBelow m = 0 := by
  rw [heldBelow, h]
  rfl

theorem heldBelow_of_le {p : ReaderPhase} {r : UInt64} (h : p.owned = some r) {m : ℕ}
    (hm : m ≤ r.toNat) : p.heldBelow m = 0 := by
  rw [heldBelow, h]
  simp [Option.toList, hm]

theorem pending_le_one (p : ReaderPhase) : p.pending ≤ 1 := by
  cases p <;> simp [pending]

/-- What is left of a thread's work in a segment that ends at `m`: a block
below `m` it took still has to be read. -/
def weight (m : ℕ) : ReaderPhase → ℕ
  | idle => 3
  | fetching => 2
  | cutting r => if r.toNat < m then 5 else 1
  | reading _ _ => 4
  | breakpoint => 0

end ReaderPhase

/-- The updates `MT_StreamReader::get_edge` returns from a buffer that
`read_data` filled with `data_in_buf` bytes: one record every `edge_size`
bytes from the start of the buffer, while `buf - start_buf < data_in_buf`. -/
def bufferEdges (buf : List UInt8) (dataInBuf : ℕ) : List StreamRecord :=
  (List.range ((dataInBuf + 8) / 9)).map fun i => StreamRecord.decode (buf.drop (9 * i))

/-- The threads reading one stream: the stream, each thread's phase and
buffer, the blocks `read_data` returned as `(read_off, data_read, buf)`,
with the buffer `get_edge` decodes them from, and every `read_off` a
`fetch_add` gave, in order. The last two are ghost variables: the source
keeps neither. -/
structure Readers (ι : Type) where
  /-- The shared stream. -/
  stream : BinaryGraphStreamMT
  /-- Where each thread is. -/
  phase : ι → ReaderPhase
  /-- Each thread's buffer. -/
  buf : ι → List UInt8
  /-- The blocks returned, in order. -/
  returned : List (ℕ × ℕ × List UInt8)
  /-- The offsets handed out, in order. -/
  taken : List ℕ

namespace Readers

variable {ι : Type}

/-- The start of a segment: every thread has used up its buffer. -/
def start (s : BinaryGraphStreamMT) (buf : ι → List UInt8) : Readers ι :=
  ⟨s, fun _ => .idle, buf, [], []⟩

/-- One atomic step of one thread `t`. -/
inductive Step [DecidableEq ι] : Readers ι → Readers ι → Prop
  /-- The guard lets the thread take a block. -/
  | guardPass (σ : Readers ι) (t : ι) : σ.phase t = .idle → σ.stream.guard = true →
      Step σ { σ with phase := Function.update σ.phase t .fetching }
  /-- The guard stops the thread: `read_data` returns `0`. -/
  | guardStop (σ : Readers ι) (t : ι) : σ.phase t = .idle → σ.stream.guard = false →
      Step σ { σ with phase := Function.update σ.phase t .breakpoint }
  /-- `stream_off.fetch_add(buf_size)`. -/
  | fetch (σ : Readers ι) (t : ι) : σ.phase t = .fetching →
      Step σ { σ with
        stream := σ.stream.fetchAdd.2
        phase := Function.update σ.phase t (.cutting σ.stream.fetchAdd.1)
        taken := σ.taken ++ [σ.stream.fetchAdd.1.toNat] }
  /-- The checks drop the block: `read_data` returns `0`. -/
  | cutDrop (σ : Readers ι) (t : ι) (r : UInt64) : σ.phase t = .cutting r →
      (σ.stream.cut r).2 = none →
      Step σ { σ with
        stream := (σ.stream.cut r).1
        phase := Function.update σ.phase t .breakpoint }
  /-- The checks cut the block to `data_to_read` bytes. -/
  | cutRead (σ : Readers ι) (t : ι) (r d : UInt64) : σ.phase t = .cutting r →
      (σ.stream.cut r).2 = some d →
      Step σ { σ with
        stream := (σ.stream.cut r).1
        phase := Function.update σ.phase t (.reading r d) }
  /-- The loop of `pread` calls ends with `data_read` bytes in the buffer; a
  thread that read something returns its records, then calls `read_data`
  again. -/
  | read (σ : Readers ι) (t : ι) (r d : UInt64) (fuel : ℕ) (st : PreadLoop) :
      σ.phase t = .reading r d →
      Loop.iterate (preadStep (filePread σ.stream.streamFd) σ.stream.streamFd r.toNat d.toNat)
        fuel ⟨0, σ.buf t, 0⟩ = some (.ok st) →
      Step σ { σ with
        phase := Function.update σ.phase t
          (if st.dataRead.toUInt32 = 0 then .breakpoint else .idle)
        buf := Function.update σ.buf t st.buf
        returned := if st.dataRead.toUInt32 = 0 then σ.returned
          else σ.returned ++ [(r.toNat, st.dataRead, st.buf)] }
  /-- `get_edge` is called again after `BREAKPOINT`. -/
  | retry (σ : Readers ι) (t : ι) : σ.phase t = .breakpoint →
      Step σ { σ with phase := Function.update σ.phase t .idle }

/-- After one thread `t` moved to `p`, a thread is `t` in `p`, or another
thread in the phase it had. -/
theorem update_eq_cases [DecidableEq ι] {phase : ι → ReaderPhase} {t t' : ι}
    {p q : ReaderPhase} (h : Function.update phase t p t' = q) :
    (t' = t ∧ p = q) ∨ (t' ≠ t ∧ phase t' = q) := by
  by_cases ht : t' = t
  · subst ht
    rw [Function.update_self] at h
    exact .inl ⟨rfl, h⟩
  · rw [Function.update_of_ne ht] at h
    exact .inr ⟨ht, h⟩

/-- A thread moved to a phase that holds no block is not one that holds a
block after the step. -/
theorem phase_of_update [DecidableEq ι] {phase : ι → ReaderPhase} {t t' : ι} {p q : ReaderPhase}
    (hnew : p.owned = none) (hq : q.owned ≠ none) (h : Function.update phase t p t' = q) :
    phase t' = q := by
  by_cases ht : t' = t
  · subst ht
    rw [Function.update_self] at h
    exact absurd (h ▸ hnew) hq
  · rwa [Function.update_of_ne ht] at h

/-- A thread that held a block before the step still does, when the thread
that moved held none. -/
theorem update_of_phase [DecidableEq ι] {phase : ι → ReaderPhase} {t t' : ι} {p q : ReaderPhase}
    (hold : (phase t).owned = none) (hq : q.owned ≠ none) (h : phase t' = q) :
    Function.update phase t p t' = q := by
  have ht : t' ≠ t := by
    rintro rfl
    exact hq (h ▸ hold)
  rwa [Function.update_of_ne ht]

theorem owned_cutting_ne (r : UInt64) : (ReaderPhase.cutting r).owned ≠ none :=
  Option.some_ne_none r

theorem owned_reading_ne (r d : UInt64) : (ReaderPhase.reading r d).owned ≠ none :=
  Option.some_ne_none r

variable [Fintype ι]

/-- The threads past the guard that have not taken their block. -/
def pending (phase : ι → ReaderPhase) : ℕ := ∑ t, (phase t).pending

/-- The blocks below `m` the threads hold. -/
def heldBlocks (m : ℕ) (phase : ι → ReaderPhase) : Multiset ℕ := ∑ t, (phase t).heldBelow m

theorem pending_update [DecidableEq ι] (phase : ι → ReaderPhase) (t : ι) (p : ReaderPhase) :
    pending (Function.update phase t p) + (phase t).pending = pending phase + p.pending :=
  sum_update_add _ _ _ _

theorem heldBlocks_update [DecidableEq ι] (m : ℕ) (phase : ι → ReaderPhase) (t : ι) (p : ReaderPhase) :
    heldBlocks m (Function.update phase t p) + (phase t).heldBelow m = heldBlocks m phase + p.heldBelow m :=
  sum_update_add _ _ _ _

theorem pending_le_card (phase : ι → ReaderPhase) : pending phase ≤ Fintype.card ι := by
  have hsum := Finset.sum_le_card_nsmul Finset.univ (fun t => (phase t).pending) 1
    (fun t _ => (phase t).pending_le_one)
  unfold pending
  simpa using hsum

/-! ## The invariant of a segment -/

/-- What holds at every step of a segment started from the stream `s₀`, in
terms of `S`, the start of the segment, `b`, the block size, and `m`, the
end of the segment. -/
structure Inv (s₀ : BinaryGraphStreamMT) (σ : Readers ι) : Prop where
  /-- Only `stream_off` changes. -/
  stream : σ.stream = { s₀ with streamOff := σ.stream.streamOff }
  /-- The blocks below `m` were handed out in order from `S`; all of them,
  once `stream_off` is past `m`. -/
  taken : ∃ j, σ.taken.filter (· < s₀.segmentEnd)
      = (List.range j).map (fun i => s₀.streamOff.toNat + s₀.bufSize.toNat * i) ∧
    (σ.stream.streamOff.toNat < s₀.segmentEnd →
      σ.stream.streamOff.toNat = s₀.streamOff.toNat + s₀.bufSize.toNat * j) ∧
    (s₀.segmentEnd ≤ σ.stream.streamOff.toNat →
      s₀.segmentEnd ≤ s₀.streamOff.toNat + s₀.bufSize.toNat * j)
  /-- A block taken and not yet checked: `stream_off` is past it, or at
  the query. -/
  cutting : ∀ t r, σ.phase t = .cutting r →
    min s₀.queryIndex.toNat (r.toNat + s₀.bufSize.toNat) ≤ σ.stream.streamOff.toNat ∧
      r.toNat + s₀.bufSize.toNat < 2 ^ 64
  /-- A block being read is below `m`, cut at `m`. -/
  reading : ∀ t r d, σ.phase t = .reading r d →
    r.toNat < s₀.segmentEnd ∧ d.toNat = min s₀.bufSize.toNat (s₀.segmentEnd - r.toNat)
  /-- **Every block below `m` handed out is held by one thread or returned,
  once.** -/
  held : heldBlocks s₀.segmentEnd σ.phase + (σ.returned.map Prod.fst : Multiset ℕ)
    = (σ.taken.filter (· < s₀.segmentEnd) : Multiset ℕ)
  /-- A returned block is cut at `m`. -/
  returned : ∀ x ∈ σ.returned, x.2.1 = min s₀.bufSize.toNat (s₀.segmentEnd - x.1)
  /-- The buffer of a returned block starts with the bytes of the file from
  its `read_off`. -/
  bytes : ∀ x ∈ σ.returned, x.2.2.take x.2.1 = (s₀.streamFd.drop x.1).take x.2.1
  /-- A thread returns `BREAKPOINT` only once `stream_off` is past `m`. -/
  breakpoint : ∀ t, σ.phase t = .breakpoint → s₀.segmentEnd ≤ σ.stream.streamOff.toNat
  /-- With the query inside the file, `stream_off` past the query means a
  thread will store the query into it. -/
  witness : s₀.queryIndex.toNat ≤ s₀.endOfFile.toNat →
    s₀.queryIndex.toNat < σ.stream.streamOff.toNat →
    ∃ t r, σ.phase t = .cutting r ∧ s₀.queryIndex.toNat < r.toNat + s₀.bufSize.toNat
  /-- `stream_off` passes `m` by at most a block for each thread. -/
  bound : σ.stream.streamOff.toNat + s₀.bufSize.toNat * pending σ.phase
    < max (s₀.streamOff.toNat + 1) (s₀.segmentEnd + s₀.bufSize.toNat * Fintype.card ι)

variable {s₀ : BinaryGraphStreamMT} {σ : Readers ι}

theorem Inv.queryIndex (hi : Inv s₀ σ) : σ.stream.queryIndex = s₀.queryIndex :=
  by rw [hi.stream]

theorem Inv.endOfFile (hi : Inv s₀ σ) : σ.stream.endOfFile = s₀.endOfFile :=
  by rw [hi.stream]

theorem Inv.bufSize (hi : Inv s₀ σ) : σ.stream.bufSize = s₀.bufSize :=
  by rw [hi.stream]

theorem Inv.queryBlock (hi : Inv s₀ σ) : σ.stream.queryBlock = s₀.queryBlock :=
  by rw [hi.stream]

theorem Inv.streamFd (hi : Inv s₀ σ) : σ.stream.streamFd = s₀.streamFd :=
  by rw [hi.stream]

theorem Inv.init (hreg : s₀.streamOff < s₀.queryIndex) (buf : ι → List UInt8) :
    Inv s₀ (start s₀ buf) where
  stream := rfl
  taken := ⟨0, rfl, fun _ => by simp [Readers.start], fun h => by simpa [Readers.start] using h⟩
  cutting _ _ h := by cases h
  reading _ _ _ h := by cases h
  held := by simp [Readers.start, heldBlocks, ReaderPhase.heldBelow, ReaderPhase.owned]
  returned _ h := by cases h
  bytes _ h := by cases h
  breakpoint _ h := by cases h
  witness _ h := absurd h (Nat.lt_asymm (UInt64.lt_iff_toNat_lt.mp hreg))
  bound := by
    have hzero : pending (fun _ : ι => ReaderPhase.idle) = 0 := by simp [pending, ReaderPhase.pending]
    show s₀.streamOff.toNat + s₀.bufSize.toNat * pending (fun _ : ι => ReaderPhase.idle) < _
    rw [hzero, Nat.mul_zero, Nat.add_zero]
    exact lt_max_of_lt_left (Nat.lt_succ_self _)

/-! ## What each step keeps -/

/-- **A store of the query into `stream_off`** keeps the invariant when
`stream_off` was at or past the query. -/
theorem Inv.store (hi : Inv s₀ σ) (hq : s₀.queryIndex.toNat ≤ σ.stream.streamOff.toNat) :
    Inv s₀ { σ with stream := { σ.stream with streamOff := σ.stream.queryIndex } } := by
  have hQ : σ.stream.queryIndex.toNat = s₀.queryIndex.toNat := by rw [hi.queryIndex]
  have hM : s₀.segmentEnd ≤ σ.stream.queryIndex.toNat := hQ ▸ Nat.min_le_left _ _
  obtain ⟨j, hj, -, hge⟩ := hi.taken
  refine ⟨with_streamOff hi.stream _, ⟨j, hj, fun h => absurd h (Nat.not_lt.mpr hM),
      fun _ => hge (le_trans (Nat.min_le_left _ _) hq)⟩,
    fun t r h => ⟨le_trans (Nat.min_le_left _ _) hQ.ge, (hi.cutting t r h).2⟩,
    hi.reading, hi.held, hi.returned, hi.bytes, fun _ _ => hM, fun _ h => absurd h (by rw [hQ]; exact lt_irrefl _),
    ?_⟩
  -- `stream_off` only goes back
  have hback : σ.stream.queryIndex.toNat ≤ σ.stream.streamOff.toNat := hQ ▸ hq
  exact lt_of_le_of_lt (Nat.add_le_add_right hback _) hi.bound


section Steps

variable [DecidableEq ι]

/-- **A step that moves one thread between phases that hold no block** keeps
the invariant, given its two clauses about that thread: a thread at
`BREAKPOINT` has `stream_off` past the end, and the bound on the pending
threads. -/
theorem Inv.setPhase (hi : Inv s₀ σ) {t : ι} {p : ReaderPhase}
    (hold : (σ.phase t).owned = none) (hnew : p.owned = none)
    (hbreak : p = .breakpoint → s₀.segmentEnd ≤ σ.stream.streamOff.toNat)
    (hbound : σ.stream.streamOff.toNat + s₀.bufSize.toNat * pending (Function.update σ.phase t p)
      < max (s₀.streamOff.toNat + 1) (s₀.segmentEnd + s₀.bufSize.toNat * Fintype.card ι)) :
    Inv s₀ { σ with phase := Function.update σ.phase t p } := by
  have hheld : heldBlocks s₀.segmentEnd (Function.update σ.phase t p)
      = heldBlocks s₀.segmentEnd σ.phase := by
    have hsum := heldBlocks_update s₀.segmentEnd σ.phase t p
    rwa [ReaderPhase.heldBelow_of_owned hold, ReaderPhase.heldBelow_of_owned hnew, add_zero,
      add_zero] at hsum
  refine ⟨hi.stream, hi.taken, fun t' r h => hi.cutting t' r
      (phase_of_update hnew (owned_cutting_ne r) h),
    fun t' r d h => hi.reading t' r d (phase_of_update hnew (owned_reading_ne r d) h),
    ?_, hi.returned, hi.bytes, fun t' h => ?_, fun hqe hlt => ?_, hbound⟩
  · show heldBlocks _ (Function.update σ.phase t p) + _ = _
    rw [hheld]
    exact hi.held
  · change Function.update σ.phase t p t' = _ at h
    by_cases ht : t' = t
    · subst ht
      rw [Function.update_self] at h
      exact hbreak h
    · rw [Function.update_of_ne ht] at h
      exact hi.breakpoint t' h
  · obtain ⟨t', r, ht', hr⟩ := hi.witness hqe hlt
    exact ⟨t', r, update_of_phase hold (owned_cutting_ne r) ht', hr⟩

theorem Inv.guardPass (hi : Inv s₀ σ) {t : ι} (ht : σ.phase t = .idle)
    (hg : σ.stream.guard = true) :
    Inv s₀ { σ with phase := Function.update σ.phase t .fetching } := by
  -- the guard passes only below the end of the segment
  have hoff : σ.stream.streamOff.toNat < s₀.segmentEnd := by
    obtain ⟨-, he, hq⟩ := guard_eq_true hg
    rw [hi.endOfFile, UInt64.lt_iff_toNat_lt] at he
    rw [hi.queryIndex, UInt64.lt_iff_toNat_lt] at hq
    exact lt_min hq he
  have hpend := pending_update σ.phase t .fetching
  have hcard := pending_le_card (Function.update σ.phase t .fetching)
  have hmul := Nat.mul_le_mul_left s₀.bufSize.toNat hcard
  refine hi.setPhase (by rw [ht]; rfl) rfl (fun h => by cases h) ?_
  exact lt_max_of_lt_right (by omega)

theorem Inv.guardStop (hblock : s₀.queryBlock = false) (hi : Inv s₀ σ) {t : ι}
    (ht : σ.phase t = .idle) (hg : σ.stream.guard = false) :
    Inv s₀ { σ with phase := Function.update σ.phase t .breakpoint } := by
  have hpend := pending_update σ.phase t .breakpoint
  rw [ht] at hpend
  refine hi.setPhase (by rw [ht]; rfl) rfl (fun _ => ?_) ?_
  · -- the guard stops below the end of the segment only for a query block
    rw [segmentEnd]
    rcases guard_eq_false hg with h | h | h
    · rw [hi.queryBlock, hblock] at h
      cases h
    · rw [hi.endOfFile] at h
      exact le_trans (Nat.min_le_right _ _) h
    · rw [hi.queryIndex] at h
      exact le_trans (Nat.min_le_left _ _) h
  · have hsame : pending (Function.update σ.phase t .breakpoint) = pending σ.phase := hpend
    rw [hsame]
    exact hi.bound

theorem Inv.retry (hi : Inv s₀ σ) {t : ι} (ht : σ.phase t = .breakpoint) :
    Inv s₀ { σ with phase := Function.update σ.phase t .idle } := by
  have hpend := pending_update σ.phase t .idle
  rw [ht] at hpend
  refine hi.setPhase (by rw [ht]; rfl) rfl (fun h => by cases h) ?_
  have hsame : pending (Function.update σ.phase t .idle) = pending σ.phase := hpend
  rw [hsame]
  exact hi.bound

/-- **A thread drops its block**, one at or past the end of the segment,
and returns `BREAKPOINT`: this keeps the invariant when `stream_off` is past
the end and no thread is left that must store the query. -/
theorem Inv.drop (hi : Inv s₀ σ) {t : ι} {r : UInt64} (ht : σ.phase t = .cutting r)
    (hr : s₀.segmentEnd ≤ r.toNat) (hoff : s₀.segmentEnd ≤ σ.stream.streamOff.toNat)
    (hwit : s₀.queryIndex.toNat ≤ s₀.endOfFile.toNat →
      ¬s₀.queryIndex.toNat < σ.stream.streamOff.toNat) :
    Inv s₀ { σ with phase := Function.update σ.phase t .breakpoint } := by
  have hheld := heldBlocks_update s₀.segmentEnd σ.phase t .breakpoint
  rw [ht, ReaderPhase.heldBelow_of_le (p := .cutting r) rfl hr,
    ReaderPhase.heldBelow_of_owned (p := .breakpoint) rfl, add_zero, add_zero] at hheld
  have hpend := pending_update σ.phase t .breakpoint
  rw [ht] at hpend
  refine ⟨hi.stream, hi.taken,
    fun t' r' h => hi.cutting t' r' (phase_of_update rfl (owned_cutting_ne r') h),
    fun t' r' d h => hi.reading t' r' d (phase_of_update rfl (owned_reading_ne r' d) h),
    ?_, hi.returned, hi.bytes, fun _ _ => hoff, fun hqe hlt => absurd hlt (hwit hqe), ?_⟩
  · show heldBlocks _ (Function.update σ.phase t _) + _ = _
    rw [hheld]
    exact hi.held
  · have hsame : pending (Function.update σ.phase t .breakpoint) = pending σ.phase := hpend
    show _ + _ * pending (Function.update σ.phase t _) < _
    rw [hsame]
    exact hi.bound

/-- **A thread keeps its block**, one below the end of the segment, cut at
the end: this keeps the invariant unless the thread is the one that must
store the query. -/
theorem Inv.claim (hi : Inv s₀ σ) {t : ι} {r d : UInt64} (ht : σ.phase t = .cutting r)
    (hr : r.toNat < s₀.segmentEnd)
    (hd : d.toNat = min s₀.bufSize.toNat (s₀.segmentEnd - r.toNat))
    (hwit : s₀.queryIndex.toNat ≤ s₀.endOfFile.toNat →
      s₀.queryIndex.toNat < σ.stream.streamOff.toNat →
      ¬s₀.queryIndex.toNat < r.toNat + s₀.bufSize.toNat) :
    Inv s₀ { σ with phase := Function.update σ.phase t (.reading r d) } := by
  -- the thread holds the same block before and after
  have hheld := heldBlocks_update s₀.segmentEnd σ.phase t (.reading r d)
  rw [ht] at hheld
  have hpend := pending_update σ.phase t (.reading r d)
  rw [ht] at hpend
  refine ⟨hi.stream, hi.taken, fun t' r' h => ?_, fun t' r' d' h => ?_,
    ?_, hi.returned, hi.bytes, fun t' h => ?_, fun hqe hlt => ?_, ?_⟩
  · rcases update_eq_cases h with ⟨-, h⟩ | ⟨-, h⟩
    · cases h
    · exact hi.cutting t' r' h
  · rcases update_eq_cases h with ⟨-, h⟩ | ⟨-, h⟩
    · cases h
      exact ⟨hr, hd⟩
    · exact hi.reading t' r' d' h
  · show heldBlocks _ (Function.update σ.phase t _) + _ = _
    rw [add_right_cancel hheld]
    exact hi.held
  · rcases update_eq_cases h with ⟨-, h⟩ | ⟨-, h⟩
    · cases h
    · exact hi.breakpoint t' h
  · obtain ⟨t', r', ht', hr'⟩ := hi.witness hqe hlt
    have hne : t' ≠ t := by
      rintro rfl
      rw [ht] at ht'
      cases ht'
      exact hwit hqe hlt hr'
    exact ⟨t', r', (Function.update_of_ne hne _ _).trans ht', hr'⟩
  · have hsame : pending (Function.update σ.phase t (.reading r d)) = pending σ.phase := hpend
    show _ + _ * pending (Function.update σ.phase t _) < _
    rw [hsame]
    exact hi.bound

/-- **The `fetch_add` of a pending thread does not wrap** while the blocks
of the pending threads fit below `2^64`. -/
theorem Inv.fetchAdd_streamOff
    (hov : s₀.endOfFile.toNat + s₀.bufSize.toNat * Fintype.card ι < 2 ^ 64)
    (hi : Inv s₀ σ) {t : ι} (ht : σ.phase t = .fetching) :
    σ.stream.streamOff.toNat + s₀.bufSize.toNat < 2 ^ 64 ∧
      σ.stream.fetchAdd.2.streamOff.toNat = σ.stream.streamOff.toNat + s₀.bufSize.toNat := by
  have hb : σ.stream.bufSize.toNat = s₀.bufSize.toNat := by rw [hi.bufSize]
  -- `t` is pending, so its block is counted in the bound
  have hpend : 1 ≤ pending σ.phase := by
    have h := pending_update σ.phase t .idle
    rw [ht] at h
    simp only [ReaderPhase.pending] at h
    omega
  have hmul : s₀.bufSize.toNat ≤ s₀.bufSize.toNat * pending σ.phase :=
    Nat.le_mul_of_pos_right _ hpend
  have hbound := hi.bound
  have hME : s₀.segmentEnd ≤ s₀.endOfFile.toNat := Nat.min_le_right _ _
  have hS := s₀.streamOff.toNat_lt
  have hov' : σ.stream.streamOff.toNat + s₀.bufSize.toNat < 2 ^ 64 := by omega
  exact ⟨hov', hb ▸ streamOff_fetchAdd (hb ▸ hov')⟩

/-- **The `fetch_add`** hands out the next block. -/
theorem Inv.fetch (hov : s₀.endOfFile.toNat + s₀.bufSize.toNat * Fintype.card ι < 2 ^ 64)
    (hi : Inv s₀ σ) {t : ι} (ht : σ.phase t = .fetching) :
    Inv s₀ { σ with
      stream := σ.stream.fetchAdd.2
      phase := Function.update σ.phase t (.cutting σ.stream.fetchAdd.1)
      taken := σ.taken ++ [σ.stream.fetchAdd.1.toNat] } := by
  -- `t` was pending: one pending thread less
  have hpend : pending σ.phase
      = pending (Function.update σ.phase t (.cutting σ.stream.fetchAdd.1)) + 1 := by
    have h := pending_update σ.phase t (.cutting σ.stream.fetchAdd.1)
    rw [ht] at h
    simp only [ReaderPhase.pending] at h
    omega
  have hmul : s₀.bufSize.toNat * pending σ.phase
      = s₀.bufSize.toNat * pending (Function.update σ.phase t (.cutting σ.stream.fetchAdd.1))
        + s₀.bufSize.toNat := by
    rw [hpend, Nat.mul_succ]
  have hbound := hi.bound
  obtain ⟨hov', hoff⟩ := hi.fetchAdd_streamOff hov ht
  have hle : σ.stream.streamOff.toNat ≤ σ.stream.fetchAdd.2.streamOff.toNat := by
    rw [hoff]
    exact Nat.le_add_right _ _
  obtain ⟨j, hj, hlt, hge⟩ := hi.taken
  refine ⟨with_streamOff hi.stream _, ?_, fun t' r h => ?_, fun t' r d h => ?_, ?_, hi.returned,
    hi.bytes, fun t' h => ?_, fun _ hq => ?_, ?_⟩
  · -- the offset handed out is the next block, or past the end
    show ∃ j, (σ.taken ++ [σ.stream.streamOff.toNat]).filter _ = _ ∧ _
    rw [List.filter_append]
    by_cases hF : σ.stream.streamOff.toNat < s₀.segmentEnd
    · refine ⟨j + 1, ?_, fun _ => ?_, fun _ => ?_⟩
      · rw [hj, List.filter_singleton, decide_eq_true hF, cond_true, List.range_succ, List.map_append,
          List.map_singleton, hlt hF]
      · rw [hoff, hlt hF, Nat.mul_succ, Nat.add_assoc]
      · rw [Nat.mul_succ, ← Nat.add_assoc, ← hlt hF, ← hoff]
        assumption
    · refine ⟨j, ?_, fun h => absurd (lt_of_le_of_lt hle h) hF, fun _ => hge (Nat.not_lt.mp hF)⟩
      rw [hj, List.filter_singleton, decide_eq_false hF, cond_false, List.append_nil]
  · rcases update_eq_cases h with ⟨-, h⟩ | ⟨-, h⟩
    · cases h
      exact ⟨le_trans (Nat.min_le_right _ _) hoff.ge, hov'⟩
    · obtain ⟨hmin, hr⟩ := hi.cutting t' r h
      exact ⟨le_trans hmin hle, hr⟩
  · rcases update_eq_cases h with ⟨-, h⟩ | ⟨-, h⟩
    · cases h
    · exact hi.reading t' r d h
  · show heldBlocks _ (Function.update σ.phase t _) + _ = ((σ.taken ++ _).filter _ : List ℕ)
    have hheld := heldBlocks_update s₀.segmentEnd σ.phase t (.cutting σ.stream.fetchAdd.1)
    rw [ht, ReaderPhase.heldBelow_of_owned (p := .fetching) rfl, add_zero] at hheld
    rw [hheld, List.filter_append, ← Multiset.coe_add, ← hi.held]
    show _ + (([σ.stream.fetchAdd.1.toNat].filter _ : List ℕ) : Multiset ℕ) + _ = _
    abel
  · rcases update_eq_cases h with ⟨-, h⟩ | ⟨-, h⟩
    · cases h
    · exact le_trans (hi.breakpoint t' h) hle
  · -- the thread that moved `stream_off` past the query will store it
    refine ⟨t, σ.stream.streamOff, Function.update_self _ _ _, ?_⟩
    rw [hoff] at hq
    exact hq
  · show σ.stream.fetchAdd.2.streamOff.toNat
        + s₀.bufSize.toNat * pending (Function.update σ.phase t (.cutting σ.stream.fetchAdd.1)) < _
    rw [hoff]
    omega

/-- **The checks drop a block.** Either the block is at or past the query
and the query is stored into `stream_off`, or it is past the end of the
file; in both cases `stream_off` is past the end of the segment. -/
theorem Inv.cutDrop (hi : Inv s₀ σ) {t : ι} {r : UInt64} (ht : σ.phase t = .cutting r)
    (hcut : (σ.stream.cut r).2 = none) :
    Inv s₀ { σ with
      stream := (σ.stream.cut r).1
      phase := Function.update σ.phase t .breakpoint } := by
  obtain ⟨hmin, hov⟩ := hi.cutting t r ht
  have hQM : s₀.segmentEnd ≤ s₀.queryIndex.toNat := Nat.min_le_left _ _
  have hEM : s₀.segmentEnd ≤ s₀.endOfFile.toNat := Nat.min_le_right _ _
  rcases cut_cases (s := σ.stream) (by rw [hi.bufSize]; exact hov) with
    ⟨hq, hc⟩ | ⟨hq, he, hc⟩ | ⟨-, -, d, hc, -⟩
  · -- at or past the query: `stream_off` goes back to the query
    rw [hi.queryIndex] at hq
    have hs := hi.store (by omega)
    rw [hc]
    have hback : s₀.segmentEnd ≤ σ.stream.queryIndex.toNat := by rw [hi.queryIndex]; exact hQM
    exact hs.drop ht (le_trans hQM hq) hback
      (fun _ h => absurd h (by rw [hi.queryIndex]; exact lt_irrefl _))
  · -- past the end of the file, below the query: no store
    rw [hi.queryIndex] at hq
    rw [hi.endOfFile] at he
    rw [hc]
    exact hi.drop ht (le_trans hEM he) (by omega) (fun _ => by omega)
  · rw [hc] at hcut
    cases hcut

/-- **The checks cut a block.** It is below the query and the end of the
file; a query inside the block is stored into `stream_off`. -/
theorem Inv.cutRead (hi : Inv s₀ σ) {t : ι} {r d : UInt64} (ht : σ.phase t = .cutting r)
    (hcut : (σ.stream.cut r).2 = some d) :
    Inv s₀ { σ with
      stream := (σ.stream.cut r).1
      phase := Function.update σ.phase t (.reading r d) } := by
  obtain ⟨hmin, hov⟩ := hi.cutting t r ht
  rcases cut_cases (s := σ.stream) (by rw [hi.bufSize]; exact hov) with
    ⟨-, hc⟩ | ⟨-, -, hc⟩ | ⟨hq, he, d', hc, hd'⟩
  · rw [hc] at hcut
    cases hcut
  · rw [hc] at hcut
    cases hcut
  rw [hc] at hcut
  cases hcut
  rw [hi.queryIndex] at hq
  rw [hi.endOfFile] at he
  rw [hi.queryIndex, hi.endOfFile, hi.bufSize] at hd'
  -- the block is cut at the end of the segment
  have hr : r.toNat < s₀.segmentEnd := lt_min hq he
  have hd : d.toNat = min s₀.bufSize.toNat (s₀.segmentEnd - r.toNat) := by
    rw [hd', segmentEnd]
    omega
  rw [hc]
  by_cases hin : σ.stream.queryIndex.toNat < r.toNat + σ.stream.bufSize.toNat
  · -- the query is inside the block: it is stored into `stream_off`
    rw [if_pos hin]
    rw [hi.queryIndex, hi.bufSize] at hin
    have hs := hi.store (by omega)
    exact hs.claim ht hr hd (fun _ h => absurd h (by rw [hi.queryIndex]; exact lt_irrefl _))
  · rw [if_neg hin]
    rw [hi.queryIndex, hi.bufSize] at hin
    exact hi.claim ht hr hd (fun _ _ => hin)

/-- **The loop of `pread` calls** reads the whole block of a complete file,
and the thread returns it. -/
theorem Inv.read (hb : 0 < s₀.bufSize.toNat) (hfile : s₀.endOfFile.toNat ≤ s₀.streamFd.length)
    (hi : Inv s₀ σ) {t : ι} {r d : UInt64} {fuel : ℕ} {st : PreadLoop}
    (ht : σ.phase t = .reading r d)
    (hloop : Loop.iterate (preadStep (filePread σ.stream.streamFd) σ.stream.streamFd r.toNat
      d.toNat) fuel ⟨0, σ.buf t, 0⟩ = some (.ok st)) :
    Inv s₀ { σ with
      phase := Function.update σ.phase t
        (if st.dataRead.toUInt32 = 0 then .breakpoint else .idle)
      buf := Function.update σ.buf t st.buf
      returned := if st.dataRead.toUInt32 = 0 then σ.returned
        else σ.returned ++ [(r.toNat, st.dataRead, st.buf)] } := by
  obtain ⟨hr, hd⟩ := hi.reading t r d ht
  have hEM : s₀.segmentEnd ≤ s₀.endOfFile.toNat := Nat.min_le_right _ _
  obtain ⟨hread, hbytes⟩ := iterate_filePread (by rw [hi.streamFd]; omega) hloop
  -- a block below the end is not empty, and fits in `uint32_t`
  have hnz : st.dataRead.toUInt32 ≠ 0 := by
    have hsmall := s₀.bufSize.toNat_lt
    have hval : st.dataRead.toUInt32.toNat = st.dataRead % 2 ^ 32 := by simp
    intro h
    rw [h, UInt32.toNat_zero] at hval
    omega
  rw [if_neg hnz, if_neg hnz]
  have hheld := heldBlocks_update s₀.segmentEnd σ.phase t .idle
  rw [ht, ReaderPhase.heldBelow_of_owned (p := .idle) rfl, add_zero] at hheld
  have hblock : (ReaderPhase.reading r d).heldBelow s₀.segmentEnd = {r.toNat} := by
    simp [ReaderPhase.heldBelow, ReaderPhase.owned, Option.toList, hr]
  have hpend := pending_update σ.phase t .idle
  rw [ht] at hpend
  refine ⟨hi.stream, hi.taken,
    fun t' r' h => hi.cutting t' r' (phase_of_update rfl (owned_cutting_ne r') h),
    fun t' r' d' h => hi.reading t' r' d' (phase_of_update rfl (owned_reading_ne r' d') h),
    ?_, fun x hx => ?_, fun x hx => ?_, fun t' h => ?_, fun hqe hlt => ?_, ?_⟩
  · -- the block moves from the thread to the returned blocks
    show heldBlocks _ (Function.update σ.phase t _)
      + ((σ.returned ++ [(r.toNat, st.dataRead, st.buf)]).map Prod.fst : Multiset ℕ) = _
    rw [List.map_append, ← Multiset.coe_add, ← hi.held, ← hheld, hblock, List.map_singleton,
      Multiset.coe_singleton]
    abel
  · rcases List.mem_append.mp hx with hx | hx
    · exact hi.returned x hx
    · rw [List.mem_singleton] at hx
      subst hx
      rw [hread]
      exact hd
  · rcases List.mem_append.mp hx with hx | hx
    · exact hi.bytes x hx
    · rw [List.mem_singleton] at hx
      subst hx
      show st.buf.take st.dataRead = (s₀.streamFd.drop r.toNat).take st.dataRead
      rw [hread, ← hi.streamFd]
      exact hbytes
  · rcases update_eq_cases h with ⟨-, h⟩ | ⟨-, h⟩
    · cases h
    · exact hi.breakpoint t' h
  · obtain ⟨t', r', ht', hr'⟩ := hi.witness hqe hlt
    have hne : t' ≠ t := by
      rintro rfl
      rw [ht] at ht'
      cases ht'
    exact ⟨t', r', (Function.update_of_ne hne _ _).trans ht', hr'⟩
  · have hsame : pending (Function.update σ.phase t .idle) = pending σ.phase := hpend
    show _ + _ * pending (Function.update σ.phase t _) < _
    rw [hsame]
    exact hi.bound

/-- **Every step keeps the invariant.** -/
theorem Inv.step (hb : 0 < s₀.bufSize.toNat) (hfile : s₀.endOfFile.toNat ≤ s₀.streamFd.length)
    (hblock : s₀.queryBlock = false)
    (hov : s₀.endOfFile.toNat + s₀.bufSize.toNat * Fintype.card ι < 2 ^ 64)
    (hi : Inv s₀ σ) {σ' : Readers ι} (h : Step σ σ') : Inv s₀ σ' := by
  cases h with
  | guardPass t ht hg => exact hi.guardPass ht hg
  | guardStop t ht hg => exact hi.guardStop hblock ht hg
  | fetch t ht => exact hi.fetch hov ht
  | cutDrop t r ht hcut => exact hi.cutDrop ht hcut
  | cutRead t r d ht hcut => exact hi.cutRead ht hcut
  | read t r d fuel st ht hloop => exact hi.read hb hfile ht hloop
  | retry t ht => exact hi.retry ht

/-- **The invariant of a run**: it holds at every state a segment reaches. -/
theorem Inv.reach (hb : 0 < s₀.bufSize.toNat) (hfile : s₀.endOfFile.toNat ≤ s₀.streamFd.length)
    (hblock : s₀.queryBlock = false)
    (hov : s₀.endOfFile.toNat + s₀.bufSize.toNat * Fintype.card ι < 2 ^ 64)
    (hreg : s₀.streamOff < s₀.queryIndex) {buf : ι → List UInt8}
    (hrun : Relation.ReflTransGen Step (start s₀ buf) σ) : Inv s₀ σ := by
  induction hrun with
  | refl => exact Inv.init hreg buf
  | tail _ hstep ih => exact ih.step hb hfile hblock hov hstep

/-! ## Every thread returns `BREAKPOINT` -/

/-- **A move of the threads**: a step after which every thread that returned
`BREAKPOINT` still has, since none calls `get_edge` again before the
query. -/
def Moves (σ σ' : Readers ι) : Prop :=
  Step σ σ' ∧ ∀ t, σ.phase t = .breakpoint → σ'.phase t = .breakpoint

omit [Fintype ι] in
/-- A step of a thread that has not returned `BREAKPOINT` is a move. -/
theorem Moves.of_update {σ' : Readers ι} {t : ι} {p : ReaderPhase} (hs : Step σ σ')
    (ht : σ.phase t ≠ .breakpoint) (hp : σ'.phase = Function.update σ.phase t p) :
    Moves σ σ' := by
  refine ⟨hs, fun t' h => ?_⟩
  have hne : t' ≠ t := by
    rintro rfl
    exact ht h
  rw [hp, Function.update_of_ne hne]
  exact h

/-- **What is left to do** in a segment that ends at `m`, with blocks of `b`
bytes: the work of each thread, where a block below `m` that it took still
has to be read, and four for each block below `m` not yet handed out. -/
def work (m b : ℕ) (σ : Readers ι) : ℕ :=
  ∑ t, (σ.phase t).weight m + 4 * blocksLeft m b σ.stream

/-- Moving one thread and `stream_off` lowers the work left when it lowers
what that thread and the blocks left count. -/
theorem work_lt_of_update {m b : ℕ} {σ' : Readers ι} {t : ι} {p : ReaderPhase}
    (hp : σ'.phase = Function.update σ.phase t p)
    (h : p.weight m + 4 * blocksLeft m b σ'.stream
      < (σ.phase t).weight m + 4 * blocksLeft m b σ.stream) :
    work m b σ' < work m b σ := by
  have hsum := sum_update_add (fun p : ReaderPhase => p.weight m) σ.phase t p
  unfold work
  rw [hp]
  omega

/-- **Every move lowers the work left.** The guard, the checks and the loop
of `pread` calls each move a thread on; the `fetch_add` of a block below the
end hands out one block of the four it is worth, and the stores into
`stream_off` only put the query there, past the end. -/
theorem Inv.work_lt (hb : 0 < s₀.bufSize.toNat)
    (hov : s₀.endOfFile.toNat + s₀.bufSize.toNat * Fintype.card ι < 2 ^ 64)
    (hi : Inv s₀ σ) {σ' : Readers ι} (h : Moves σ σ') :
    work s₀.segmentEnd s₀.bufSize.toNat σ' < work s₀.segmentEnd s₀.bufSize.toNat σ := by
  have hQM : s₀.segmentEnd ≤ σ.stream.queryIndex.toNat := by
    rw [hi.queryIndex]
    exact Nat.min_le_left _ _
  obtain ⟨hs, hkeep⟩ := h
  cases hs with
  | guardPass t ht hg =>
    refine work_lt_of_update rfl ?_
    rw [ht]
    simp only [ReaderPhase.weight]
    omega
  | guardStop t ht hg =>
    refine work_lt_of_update rfl ?_
    rw [ht]
    simp only [ReaderPhase.weight]
    omega
  | fetch t ht =>
    refine work_lt_of_update rfl ?_
    obtain ⟨-, hoff⟩ := hi.fetchAdd_streamOff hov ht
    rw [ht]
    show (ReaderPhase.cutting σ.stream.streamOff).weight s₀.segmentEnd
        + 4 * blocksLeft _ _ σ.stream.fetchAdd.2 < 2 + 4 * blocksLeft _ _ σ.stream
    by_cases hlt : σ.stream.streamOff.toNat < s₀.segmentEnd
    · -- a block below the end is handed out
      have hleft := blocksLeft_add hb hlt (σ.stream.fetchAdd.2) hoff
      simp only [ReaderPhase.weight, if_pos hlt]
      omega
    · have hle : s₀.segmentEnd ≤ σ.stream.fetchAdd.2.streamOff.toNat := by omega
      simp only [ReaderPhase.weight, if_neg hlt, blocksLeft_of_le hb hle]
      omega
  | cutDrop t r ht hcut =>
    refine work_lt_of_update rfl ?_
    have hleft := blocksLeft_cut hb hQM r
    rw [ht]
    simp only [ReaderPhase.weight]
    split <;> omega
  | cutRead t r d ht hcut =>
    refine work_lt_of_update rfl ?_
    have hleft := blocksLeft_cut hb hQM r
    -- only a block below the query and the end of the file is read
    have hr : r.toNat < s₀.segmentEnd := by
      obtain ⟨-, hov'⟩ := hi.cutting t r ht
      rcases cut_cases (s := σ.stream) (by rw [hi.bufSize]; exact hov') with
        ⟨-, hc⟩ | ⟨-, -, hc⟩ | ⟨hq, he, -⟩
      · rw [hc] at hcut
        cases hcut
      · rw [hc] at hcut
        cases hcut
      · rw [hi.queryIndex] at hq
        rw [hi.endOfFile] at he
        exact lt_min hq he
    rw [ht]
    simp only [ReaderPhase.weight, if_pos hr]
    omega
  | read t r d fuel st ht hloop =>
    refine work_lt_of_update rfl ?_
    rw [ht]
    by_cases hz : st.dataRead.toUInt32 = 0
    · simp only [if_pos hz, ReaderPhase.weight]
      omega
    · simp only [if_neg hz, ReaderPhase.weight]
      omega
  | retry t ht =>
    -- a thread at `BREAKPOINT` does not call `get_edge` again
    have hstay := hkeep t ht
    simp only [Function.update_self] at hstay
    cases hstay

/-- **No thread is stuck before `BREAKPOINT`**: a thread that has not
returned it has a step, whatever the others do. The loop of `pread` calls
ends after one call on a complete file. -/
theorem Inv.exists_moves (hfile : s₀.endOfFile.toNat ≤ s₀.streamFd.length) (hi : Inv s₀ σ)
    {t : ι} (ht : σ.phase t ≠ .breakpoint) : ∃ σ', Moves σ σ' := by
  cases hp : σ.phase t with
  | idle =>
    cases hg : σ.stream.guard
    · exact ⟨_, Moves.of_update (Step.guardStop σ t hp hg) ht rfl⟩
    · exact ⟨_, Moves.of_update (Step.guardPass σ t hp hg) ht rfl⟩
  | fetching => exact ⟨_, Moves.of_update (Step.fetch σ t hp) ht rfl⟩
  | cutting r =>
    cases hc : (σ.stream.cut r).2 with
    | none => exact ⟨_, Moves.of_update (Step.cutDrop σ t r hp hc) ht rfl⟩
    | some d => exact ⟨_, Moves.of_update (Step.cutRead σ t r d hp hc) ht rfl⟩
  | reading r d =>
    obtain ⟨hr, hd⟩ := hi.reading t r d hp
    have hEM : s₀.segmentEnd ≤ s₀.endOfFile.toNat := Nat.min_le_right _ _
    have hlen : r.toNat + d.toNat ≤ σ.stream.streamFd.length := by
      rw [hi.streamFd]
      omega
    -- the loop ends within two passes
    obtain ⟨st, hloop⟩ : ∃ st, Loop.iterate (preadStep (filePread σ.stream.streamFd)
        σ.stream.streamFd r.toNat d.toNat) 2 ⟨0, σ.buf t, 0⟩ = some (.ok st) := by
      rcases Nat.eq_zero_or_pos d.toNat with hzero | hpos
      · exact ⟨_, Loop.iterate_of_inr (preadStep_of_le (by rw [hzero])) 1⟩
      · have hread : filePread σ.stream.streamFd 0 d.toNat r.toNat = some d.toNat := by
          rw [filePread, Nat.min_eq_left (by omega)]
        exact ⟨_, iterate_preadStep_of_read _ hpos hread 0⟩
    exact ⟨_, Moves.of_update (Step.read σ t r d 2 st hp hloop) ht rfl⟩
  | breakpoint => exact absurd hp ht

/-- **Every interleaving ends**: from a state the invariant holds in, every
sequence of moves is finite. -/
theorem Inv.acc (hb : 0 < s₀.bufSize.toNat) (hfile : s₀.endOfFile.toNat ≤ s₀.streamFd.length)
    (hblock : s₀.queryBlock = false)
    (hov : s₀.endOfFile.toNat + s₀.bufSize.toNat * Fintype.card ι < 2 ^ 64)
    (hi : Inv s₀ σ) : Acc (fun σ' σ => Moves σ σ') σ := by
  -- by induction on a bound of the work left
  suffices h : ∀ n (σ : Readers ι), Inv s₀ σ → work s₀.segmentEnd s₀.bufSize.toNat σ < n →
      Acc (fun σ' σ => Moves σ σ') σ from h _ σ hi (Nat.lt_succ_self _)
  intro n
  induction n with
  | zero => exact fun _ _ h => absurd h (Nat.not_lt_zero _)
  | succ n ih =>
    intro σ hi hw
    refine Acc.intro σ fun σ' hm => ih σ' (hi.step hb hfile hblock hov hm.1) ?_
    have hlt := hi.work_lt hb hov hm
    omega

/-- **A state without a move has every thread at `BREAKPOINT`.** -/
theorem Inv.breakpoint_of_stuck (hfile : s₀.endOfFile.toNat ≤ s₀.streamFd.length)
    (hi : Inv s₀ σ) (hstuck : ∀ σ', ¬Moves σ σ') (t : ι) : σ.phase t = .breakpoint := by
  by_contra ht
  obtain ⟨σ', hm⟩ := hi.exists_moves hfile ht
  exact hstuck σ' hm

end Steps

/-! ## A finished segment -/

theorem Inv.lt_of_mem_returned (hi : Inv s₀ σ) {x : ℕ × ℕ × List UInt8} (hx : x ∈ σ.returned) :
    x.1 < s₀.segmentEnd := by
  have hmem : x.1 ∈ (σ.taken.filter (· < s₀.segmentEnd) : Multiset ℕ) := by
    rw [← hi.held]
    exact Multiset.mem_add.mpr (.inr (Multiset.mem_coe.mpr (List.mem_map_of_mem hx)))
  exact of_decide_eq_true (List.mem_filter.mp (Multiset.mem_coe.mp hmem)).2

/-- **What a finished segment returned**: once every thread has returned
`BREAKPOINT`, the returned blocks are the blocks from the start of the
segment to its end, each once, and `stream_off` is past the end: at the
query, when the query is inside the file. -/
theorem Inv.finished [Nonempty ι] (hi : Inv s₀ σ) (hdone : ∀ t, σ.phase t = .breakpoint) :
    ∃ j, (σ.returned.map Prod.fst).Perm
        ((List.range j).map fun i => s₀.streamOff.toNat + s₀.bufSize.toNat * i) ∧
      s₀.segmentEnd ≤ s₀.streamOff.toNat + s₀.bufSize.toNat * j ∧
      s₀.segmentEnd ≤ σ.stream.streamOff.toNat ∧
      (s₀.queryIndex.toNat ≤ s₀.endOfFile.toNat →
        σ.stream.streamOff.toNat = s₀.queryIndex.toNat) := by
  obtain ⟨j, hj, -, hge⟩ := hi.taken
  have hoff := hi.breakpoint (Classical.arbitrary ι) (hdone _)
  -- no thread holds a block
  have hnone : heldBlocks s₀.segmentEnd σ.phase = 0 :=
    Finset.sum_eq_zero fun t _ => by rw [hdone t]; rfl
  have hperm := hi.held
  rw [hnone, zero_add, hj, Multiset.coe_eq_coe] at hperm
  refine ⟨j, hperm, hge hoff, hoff, fun hqe => ?_⟩
  -- past the query, a thread would still have to store it
  have hQ : s₀.segmentEnd = s₀.queryIndex.toNat := Nat.min_eq_left hqe
  by_contra hne
  obtain ⟨t, r, ht, -⟩ := hi.witness hqe (by omega)
  rw [hdone t] at ht
  cases ht

/-- **The records of a finished segment**: the returned blocks hold the
records from the start of the segment to its end, each once. -/
theorem Inv.finished_records [Nonempty ι] (hi : Inv s₀ σ) (hdone : ∀ t, σ.phase t = .breakpoint)
    (h9 : s₀.bufSize.toNat % 9 = 0) (hm9 : (s₀.segmentEnd - s₀.streamOff.toNat) % 9 = 0) :
    (σ.returned.flatMap fun x => List.range' x.1 (x.2.1 / 9) 9).Perm
      (List.range' s₀.streamOff.toNat ((s₀.segmentEnd - s₀.streamOff.toNat) / 9) 9) := by
  obtain ⟨j, hperm, hcover, -, -⟩ := hi.finished hdone
  have hflat : (σ.returned.flatMap fun x => List.range' x.1 (x.2.1 / 9) 9)
      = (σ.returned.map Prod.fst).flatMap
        fun r => List.range' r (min s₀.bufSize.toNat (s₀.segmentEnd - r) / 9) 9 := by
    rw [List.flatMap_map]
    exact List.flatMap_congr fun x hx => by rw [hi.returned x hx]
  rw [hflat, ← flatMap_blocks h9 j _ hm9 hcover]
  exact hperm.flatMap_right _

end Readers

/-- **A buffer that starts with a block of whole records of the file** gives
back, through `get_edge`, the records at the offsets of the block. -/
theorem bufferEdges_eq {file buf : List UInt8} {r d : ℕ} (hd : d % 9 = 0)
    (hbuf : buf.take d = (file.drop r).take d) :
    bufferEdges buf d
      = (List.range' r (d / 9) 9).map fun o => StreamRecord.decode (file.drop o) := by
  have hlen : (d + 8) / 9 = d / 9 := by omega
  apply List.ext_getElem
  · simp [bufferEdges, hlen]
  · intro i h1 _
    have hi : 9 * i + 9 ≤ d := by
      simp only [bufferEdges, List.length_map, List.length_range, hlen] at h1
      omega
    simp only [bufferEdges, List.getElem_map, List.getElem_range, List.getElem_range']
    -- both records are read from the same nine bytes
    rw [← StreamRecord.decode_take (buf.drop (9 * i)) (le_refl 9),
      ← StreamRecord.decode_take (file.drop (r + 9 * i)) (le_refl 9)]
    congr 1
    calc (buf.drop (9 * i)).take 9 = ((buf.take d).drop (9 * i)).take 9 := by
          rw [List.drop_take, List.take_take, Nat.min_eq_left (by omega)]
      _ = (((file.drop r).take d).drop (9 * i)).take 9 := by rw [hbuf]
      _ = (file.drop (r + 9 * i)).take 9 := by
          rw [List.drop_take, List.take_take, Nat.min_eq_left (by omega), List.drop_drop]

/-! ## One reader on a file of one record -/

/-- The checks of the block at `12` of a file of one record, below the
query: the whole record, with no store. -/
theorem cut_oneRecord {s : BinaryGraphStreamMT} (hq : 21 ≤ s.queryIndex.toNat)
    (he : s.endOfFile = 21) (hb : s.bufSize = 9) : s.cut 12 = (s, some 9) := by
  obtain ⟨d, hc, hd⟩ := @cut_of_lt s 12 (UInt64.lt_iff_toNat_lt.mpr (by show 12 < _; omega))
    (by rw [he]; decide) (by rw [hb]; decide)
  have hd9 : d = 9 := by
    apply UInt64.toNat_inj.mp
    rw [hd, hb, he]
    show min (min 9 (s.queryIndex.toNat - 12)) (21 - 12) = 9
    omega
  rw [hc, if_neg (by rw [hb]; show ¬s.queryIndex.toNat < 12 + 9; omega), hd9]

/-- **One reader on a file of one record**, with the query at or past the
end of the file: the thread reads the record, then returns `BREAKPOINT`
with `stream_off` at the end of the file, `21`. -/
theorem oneRecord_run {s : BinaryGraphStreamMT}
    (hfd : s.streamFd = Bytes.toBytesLE 4 2 ++ Bytes.toBytesLE 8 1 ++ StreamRecord.encode ⟨0, 0, 1⟩)
    (hE : s.endOfFile = 21) (hb : s.bufSize = 9) (hoff : s.streamOff = 12)
    (hqb : s.queryBlock = false) (hQ : 21 ≤ s.queryIndex.toNat) :
    ∃ σ, Relation.ReflTransGen Readers.Step (Readers.start s fun _ : Unit => List.replicate 9 0) σ ∧
      (∀ t, σ.phase t = .breakpoint) ∧ σ.stream.streamOff.toNat = 21 := by
  obtain ⟨fd, nn, ne, bs, eof, off, Q, qb⟩ := s
  dsimp only at hfd hE hb hoff hqb hQ
  subst hfd hE hb hoff hqb
  -- the guard, the `fetch_add` of the block at `12`, and its checks
  have h3 := (((Relation.ReflTransGen.single (Readers.Step.guardPass
    (Readers.start ⟨Bytes.toBytesLE 4 2 ++ Bytes.toBytesLE 8 1 ++ StreamRecord.encode ⟨0, 0, 1⟩,
      nn, ne, 9, 21, 12, Q, false⟩ fun _ : Unit => List.replicate 9 0) () rfl
    (guard_of_lt rfl (show (12 : UInt64) < 21 by decide) (UInt64.lt_iff_toNat_lt.mpr (by show 12 < Q.toNat; omega))))).tail (Readers.Step.fetch _ () rfl)).tail
    (Readers.Step.cutRead _ () 12 9 rfl (by rw [cut_oneRecord] <;> first | rfl | exact hQ)))
  rw [cut_oneRecord] at h3
  rotate_left
  · exact hQ
  · rfl
  · rfl
  -- the read of the whole record, then the guard at the end of the file
  exact ⟨_, (h3.tail (Readers.Step.read _ () 12 9 2 _ rfl
    (iterate_preadStep_of_read _ (by decide) rfl 0))).tail (Readers.Step.guardStop _ () rfl rfl),
    fun _ => rfl, rfl⟩


/-! ## One segment of the stream -/

/-- **Every record of a segment is read once, by threads that all return
`BREAKPOINT`.** A well-formed stream file, read from a record boundary by
any nonempty set of threads after a query at record `q` was registered.
Whatever the interleaving of their atomic steps, as long as no thread calls
`get_edge` again after `BREAKPOINT`, the threads stop, and only once every
thread has returned `BREAKPOINT`. Then the returned blocks are nonempty
runs of whole records, their buffers start with the bytes of the file at
their offsets, and between them they hold every record from the start of
the segment to record `min q num_edges` exactly once, which is what the
calls of `get_edge` return. `stream_off` is past that record, and at record
`q` when `q ≤ num_edges`. The 64-bit offsets must not wrap: the end of the
file plus a block for each thread, and the query, fit below `2^64`. -/
theorem segment_reads_each_record_once {ι : Type} [DecidableEq ι] [Fintype ι] [Nonempty ι]
    {s s₀ : BinaryGraphStreamMT} {q : UInt64}
    (hE : s.endOfFile.toNat = 12 + 9 * s.numEdges.toNat)
    (hfile : s.endOfFile.toNat ≤ s.streamFd.length)
    (hb : 0 < s.bufSize.toNat) (h9 : s.bufSize.toNat % 9 = 0)
    (hstart : ∃ k, s.streamOff.toNat = 12 + 9 * k) (hblock : s.queryBlock = false)
    (hov : s.endOfFile.toNat + s.bufSize.toNat * Fintype.card ι < 2 ^ 64)
    (hreg : s.registerQuery q = (s₀, true)) (hq : 12 + 9 * q.toNat < 2 ^ 64)
    (buf : ι → List UInt8) :
    (∀ σ, Relation.ReflTransGen Readers.Step (Readers.start s₀ buf) σ →
      Acc (fun σ' σ => Readers.Moves σ σ') σ ∧
        ((∀ σ', ¬Readers.Moves σ σ') → ∀ t, σ.phase t = .breakpoint)) ∧
    ∀ σ, Relation.ReflTransGen Readers.Step (Readers.start s₀ buf) σ →
      (∀ t, σ.phase t = .breakpoint) →
      (σ.returned.flatMap fun x => List.range' x.1 (x.2.1 / 9) 9).Perm
          (List.range' s.streamOff.toNat
            ((12 + 9 * min q.toNat s.numEdges.toNat - s.streamOff.toNat) / 9) 9) ∧
        (∀ x ∈ σ.returned, 0 < x.2.1 ∧ x.2.1 % 9 = 0 ∧
          x.2.2.take x.2.1 = (s.streamFd.drop x.1).take x.2.1) ∧
        (σ.returned.flatMap fun x => bufferEdges x.2.2 x.2.1).Perm
          ((List.range' s.streamOff.toNat
            ((12 + 9 * min q.toNat s.numEdges.toNat - s.streamOff.toNat) / 9) 9).map
              fun o => StreamRecord.decode (s.streamFd.drop o)) ∧
        12 + 9 * min q.toNat s.numEdges.toNat ≤ σ.stream.streamOff.toNat ∧
        (q ≤ s.numEdges → σ.stream.streamOff.toNat = 12 + 9 * q.toNat) := by
  obtain ⟨rfl, hlt⟩ := registerQuery_eq_true hreg
  obtain ⟨k, hk⟩ := hstart
  -- the query is record `q`, and the segment ends at record `min q num_edges`
  have hQ : (12 + q * 9 : UInt64).toNat = 12 + 9 * q.toNat := by
    rw [UInt64.toNat_add, UInt64.toNat_mul]
    show (12 + q.toNat * 9 % 2 ^ 64) % 2 ^ 64 = _
    rw [Nat.mod_eq_of_lt (show q.toNat * 9 < 2 ^ 64 by omega),
      Nat.mod_eq_of_lt (show 12 + q.toNat * 9 < 2 ^ 64 by omega)]
    omega
  have hm : segmentEnd { s with queryIndex := 12 + q * 9 }
      = 12 + 9 * min q.toNat s.numEdges.toNat := by
    show min (12 + q * 9 : UInt64).toNat s.endOfFile.toNat = _
    rw [hQ, hE]
    omega
  have hreg' : ({ s with queryIndex := 12 + q * 9 } : BinaryGraphStreamMT).streamOff
      < ({ s with queryIndex := 12 + q * 9 } : BinaryGraphStreamMT).queryIndex := hlt
  have hinv : ∀ σ, Relation.ReflTransGen Readers.Step
      (Readers.start { s with queryIndex := 12 + q * 9 } buf) σ →
      Readers.Inv { s with queryIndex := 12 + q * 9 } σ := fun σ hrun =>
    Readers.Inv.reach hb hfile hblock hov hreg' hrun
  refine ⟨fun σ hrun => ⟨@Readers.Inv.acc ι _ { s with queryIndex := 12 + q * 9 } σ _ hb hfile
      hblock hov (hinv σ hrun),
    fun hstuck => @Readers.Inv.breakpoint_of_stuck ι _ { s with queryIndex := 12 + q * 9 } σ _
      hfile (hinv σ hrun) hstuck⟩, fun σ hrun hdone => ?_⟩
  have hi := hinv σ hrun
  have hrec := hi.finished_records hdone h9 (by rw [hm]; dsimp only; omega)
  rw [hm] at hrec
  -- a returned block starts on a record, is cut at the end of the segment and read from the file
  have hblocks : ∀ x ∈ σ.returned, 0 < x.2.1 ∧ x.2.1 % 9 = 0 ∧
      x.2.2.take x.2.1 = (s.streamFd.drop x.1).take x.2.1 := by
    intro x hx
    have hend := hi.lt_of_mem_returned hx
    obtain ⟨j, hperm, -⟩ := hi.finished hdone
    obtain ⟨i, -, hx1⟩ := List.mem_map.mp (hperm.subset (List.mem_map_of_mem hx))
    have hlen := hi.returned x hx
    rw [hm] at hend hlen
    dsimp only at hx1 hlen
    have hbi : s.bufSize.toNat * i % 9 = 0 := by rw [Nat.mul_mod, h9, Nat.zero_mul, Nat.zero_mod]
    exact ⟨by omega, by omega, hi.bytes x hx⟩
  -- what `get_edge` returns from the blocks is the records at their offsets
  have hedges : (σ.returned.flatMap fun x => bufferEdges x.2.2 x.2.1)
      = (σ.returned.flatMap fun x => List.range' x.1 (x.2.1 / 9) 9).map
        fun o => StreamRecord.decode (s.streamFd.drop o) := by
    rw [List.map_flatMap]
    exact List.flatMap_congr fun x hx =>
      bufferEdges_eq (hblocks x hx).2.1 (hblocks x hx).2.2
  obtain ⟨-, -, -, hoff, hat⟩ := hi.finished hdone
  rw [hm] at hoff
  refine ⟨hrec, hblocks, ?_, hoff, fun hqn => ?_⟩
  · rw [hedges]
    exact hrec.map _
  · have hqn' := UInt64.le_iff_toNat_le.mp hqn
    rw [hat (by dsimp only; rw [hQ]; omega)]
    exact hQ

/-- `segment_reads_each_record_once` on a file of one record, read by one
thread with the query registered at record `1`, the end of the file: the
run of the thread that reads the record and then returns `BREAKPOINT` is
one of the runs it speaks of. -/
theorem segment_reads_each_record_once_one_record :
    ∃ (s s₀ : BinaryGraphStreamMT),
      ofFile (Bytes.toBytesLE 4 2 ++ Bytes.toBytesLE 8 1 ++ StreamRecord.encode ⟨0, 0, 1⟩) 9
        = .ok s ∧
      s.registerQuery 1 = (s₀, true) ∧
      (∃ σ : Readers Unit,
        Relation.ReflTransGen Readers.Step (Readers.start s₀ fun _ : Unit => List.replicate 9 0) σ ∧
        ∀ t, σ.phase t = .breakpoint) ∧
      (∀ σ, Relation.ReflTransGen Readers.Step (Readers.start s₀ fun _ : Unit => List.replicate 9 0) σ →
        Acc (fun σ' σ => Readers.Moves σ σ') σ ∧
          ((∀ σ', ¬Readers.Moves σ σ') → ∀ t, σ.phase t = .breakpoint)) ∧
      ∀ σ, Relation.ReflTransGen Readers.Step (Readers.start s₀ fun _ : Unit => List.replicate 9 0) σ →
        (∀ t, σ.phase t = .breakpoint) →
        (σ.returned.flatMap fun x => List.range' x.1 (x.2.1 / 9) 9).Perm
            (List.range' s.streamOff.toNat
              ((12 + 9 * min (1 : UInt64).toNat s.numEdges.toNat - s.streamOff.toNat) / 9) 9) ∧
          (∀ x ∈ σ.returned, 0 < x.2.1 ∧ x.2.1 % 9 = 0 ∧
            x.2.2.take x.2.1 = (s.streamFd.drop x.1).take x.2.1) ∧
          (σ.returned.flatMap fun x => bufferEdges x.2.2 x.2.1).Perm
            ((List.range' s.streamOff.toNat
              ((12 + 9 * min (1 : UInt64).toNat s.numEdges.toNat - s.streamOff.toNat) / 9) 9).map
                fun o => StreamRecord.decode (s.streamFd.drop o)) ∧
          12 + 9 * min (1 : UInt64).toNat s.numEdges.toNat ≤ σ.stream.streamOff.toNat ∧
          ((1 : UInt64) ≤ s.numEdges → σ.stream.streamOff.toNat = 12 + 9 * (1 : UInt64).toNat) := by
  obtain ⟨σ, hrun, hdone, -⟩ := oneRecord_run (s := ⟨Bytes.toBytesLE 4 2 ++ Bytes.toBytesLE 8 1
    ++ StreamRecord.encode ⟨0, 0, 1⟩, 2, 1, 9, 21, 12, 21, false⟩) rfl rfl rfl rfl rfl (by decide)
  exact ⟨_, _, rfl, rfl, ⟨σ, hrun, hdone⟩, segment_reads_each_record_once (by decide)
    (by decide) (by decide) (by decide) ⟨0, rfl⟩ rfl (by decide) rfl (by decide)
    (fun _ : Unit => List.replicate 9 0)⟩

/-- **A query past the last record is not where the next segment starts.**
On a file of one record, read by one thread with the query registered at
record `5`, past the end of the file, every thread returns `BREAKPOINT` with
`stream_off` at the end of the file, `21`, and not at record `5`, `57`. -/
theorem segment_ends_past_query :
    ∃ (s s₀ : BinaryGraphStreamMT) (σ : Readers Unit),
      ofFile (Bytes.toBytesLE 4 2 ++ Bytes.toBytesLE 8 1 ++ StreamRecord.encode ⟨0, 0, 1⟩) 9
        = .ok s ∧
      s.numEdges < 5 ∧ s.registerQuery 5 = (s₀, true) ∧
      Relation.ReflTransGen Readers.Step (Readers.start s₀ fun _ => List.replicate 9 0) σ ∧
      (∀ t, σ.phase t = .breakpoint) ∧ σ.stream.streamOff.toNat ≠ 12 + 9 * (5 : UInt64).toNat := by
  obtain ⟨σ, hrun, hdone, hoff⟩ := oneRecord_run (s := ⟨Bytes.toBytesLE 4 2 ++ Bytes.toBytesLE 8 1
    ++ StreamRecord.encode ⟨0, 0, 1⟩, 2, 1, 9, 21, 12, 57, false⟩) rfl rfl rfl rfl rfl (by decide)
  exact ⟨_, _, σ, rfl, by decide, rfl, hrun, hdone, by rw [hoff]; decide⟩

end GraphZeppelin
