import Mathlib.Data.UInt
import Mathlib.Algebra.Order.Group.Nat

/-!
# Bytes and input streams

The byte-level vocabulary of a binary file format, whatever the format
holds.

A fixed-width unsigned word is stored as its `w` bytes, least significant
first (`toBytesLE`), and read back by `ofBytesLE`. An array of words is the
concatenation of their encodings (`encodeWords`), and its `i`-th word is
read from the `w` bytes at offset `w * i` (`wordAt`).

An input stream (`InStream`) is the part of a file not yet read together
with the flags `failbit` and `eofbit` of `std::istream`. `InStream.read n`
reads as `istream::read` does. A stream that is not good gives nothing and
sets `failbit`. Otherwise it gives `n` bytes if there are that many, and
otherwise what is left, setting both flags. The bytes a read gives land at
the front of its destination, and the rest of the destination keeps its
previous bytes (`overwrite`). So a word read from a short stream keeps the
high bytes it had (`InStream.readLE`), and a buffer read short keeps the
tail of its previous contents.

The laws are the round trips. A word below `256 ^ w` survives its encoding
(`ofBytesLE_toBytesLE_of_lt`). A good stream that starts with an encoding
gives the word back and stays good on what follows (`readLE_toBytesLE`),
and the same holds for an array (`readWords_encodeWords`). A stream that
is not good changes nothing it is read into (`readLE_of_not_good`), and
reads of a file fail only at its end (`FailsAtEof`).
-/

namespace Bytes

/-! ## Little-endian words -/

/-- The `w` bytes of `n`, least significant first; the bits above `8 * w`
are dropped. -/
def toBytesLE : ℕ → ℕ → List UInt8
  | 0, _ => []
  | w + 1, n => UInt8.ofNat n :: toBytesLE w (n / 256)

/-- The number with the given bytes, least significant first. -/
def ofBytesLE : List UInt8 → ℕ
  | [] => 0
  | b :: bs => b.toNat + 256 * ofBytesLE bs

@[simp] theorem length_toBytesLE (w n : ℕ) : (toBytesLE w n).length = w := by
  induction w generalizing n with
  | zero => rfl
  | succ w ih => rw [toBytesLE, List.length_cons, ih]

theorem ofBytesLE_toBytesLE (w n : ℕ) : ofBytesLE (toBytesLE w n) = n % 256 ^ w := by
  induction w generalizing n with
  | zero => rw [toBytesLE, ofBytesLE, pow_zero, Nat.mod_one]
  | succ w ih =>
    rw [toBytesLE, ofBytesLE, ih, UInt8.toNat_ofNat', show (2 : ℕ) ^ 8 = 256 from rfl,
      pow_succ', Nat.mod_mul]

@[simp] theorem ofBytesLE_toBytesLE_of_lt {w n : ℕ} (h : n < 256 ^ w) :
    ofBytesLE (toBytesLE w n) = n := by
  rw [ofBytesLE_toBytesLE, Nat.mod_eq_of_lt h]

/-! ## Arrays of words -/

/-- An array of `n` words of `w` bytes each, stored one after the other. -/
def encodeWords (w : ℕ) (f : ℕ → ℕ) (n : ℕ) : List UInt8 :=
  (List.range n).flatMap fun i => toBytesLE w (f i)

/-- The `i`-th word of `w` bytes of a byte array. -/
def wordAt (w : ℕ) (bytes : List UInt8) (i : ℕ) : ℕ :=
  ofBytesLE ((bytes.drop (w * i)).take w)

section Pieces

variable {α β : Type*} {g : α → List β} {w : ℕ}

/-- Pieces of one length `w`: the first `w * i` elements of their
concatenation are the first `i` pieces. -/
theorem take_flatMap_of_length (hg : ∀ a, (g a).length = w) :
    ∀ (L : List α) (i : ℕ), (L.flatMap g).take (w * i) = (L.take i).flatMap g
  | [], _ => by rw [List.flatMap_nil, List.take_nil, List.take_nil, List.flatMap_nil]
  | _ :: _, 0 => by rw [Nat.mul_zero, List.take_zero, List.take_zero, List.flatMap_nil]
  | a :: L, i + 1 => by
    rw [List.flatMap_cons, Nat.mul_succ, Nat.add_comm, List.take_append,
      List.take_of_length_le (by rw [hg a]; omega), hg a, Nat.add_sub_cancel_left,
      take_flatMap_of_length hg L i, List.take_succ_cons, List.flatMap_cons]

/-- Pieces of one length `w`: dropping `w * i` elements drops `i`
pieces. -/
theorem drop_flatMap_of_length (hg : ∀ a, (g a).length = w) :
    ∀ (L : List α) (i : ℕ), (L.flatMap g).drop (w * i) = (L.drop i).flatMap g
  | [], _ => by rw [List.flatMap_nil, List.drop_nil, List.drop_nil, List.flatMap_nil]
  | _ :: _, 0 => by rw [Nat.mul_zero, List.drop_zero, List.drop_zero]
  | a :: L, i + 1 => by
    rw [List.flatMap_cons, Nat.mul_succ, Nat.add_comm, List.drop_append,
      List.drop_of_length_le (by rw [hg a]; omega), List.nil_append, hg a,
      Nat.add_sub_cancel_left, drop_flatMap_of_length hg L i, List.drop_succ_cons]

theorem length_flatMap_of_length (hg : ∀ a, (g a).length = w) (L : List α) :
    (L.flatMap g).length = w * L.length := by
  induction L with
  | nil => rfl
  | cons a L ih => rw [List.flatMap_cons, List.length_append, ih, hg a, List.length_cons,
      Nat.mul_succ, Nat.add_comm]

/-- The `w` elements at offset `w * i` are the `i`-th piece. -/
theorem take_drop_flatMap (hg : ∀ a, (g a).length = w) {L : List α} {i : ℕ}
    (hi : i < L.length) : ((L.flatMap g).drop (w * i)).take w = g L[i] := by
  rw [drop_flatMap_of_length hg, List.drop_eq_getElem_cons hi, List.flatMap_cons,
    List.take_append_of_le_length (hg _).ge, List.take_of_length_le (hg _).le]

end Pieces

@[simp] theorem length_encodeWords (w : ℕ) (f : ℕ → ℕ) (n : ℕ) :
    (encodeWords w f n).length = w * n := by
  rw [encodeWords, length_flatMap_of_length (fun i => length_toBytesLE w (f i)),
    List.length_range]

/-- Each word of an array is read back from its encoding, whatever
follows it. -/
theorem wordAt_encodeWords {w n i : ℕ} (f : ℕ → ℕ) (more : List UInt8) (hi : i < n) :
    wordAt w (encodeWords w f n ++ more) i = f i % 256 ^ w := by
  have hle : w * i + w ≤ (encodeWords w f n).length := by
    rw [length_encodeWords, ← Nat.mul_succ]
    exact Nat.mul_le_mul_left w hi
  have hpiece : ((encodeWords w f n).drop (w * i)).take w = toBytesLE w (f i) := by
    rw [encodeWords, take_drop_flatMap (fun j => length_toBytesLE w (f j))
      (by rw [List.length_range]; exact hi), List.getElem_range]
  rw [wordAt, List.drop_append_of_le_length (by omega),
    List.take_append_of_le_length (by rw [List.length_drop]; omega), hpiece,
    ofBytesLE_toBytesLE]

/-! ## Storing what a read gives -/

/-- The destination of a read after it: the bytes read at the front, and
the previous bytes after them. -/
def overwrite (old got : List UInt8) : List UInt8 := got ++ old.drop got.length

@[simp] theorem overwrite_nil (old : List UInt8) : overwrite old [] = old := rfl

/-- A read as long as its destination replaces all of it. -/
theorem overwrite_of_length_le {old got : List UInt8} (h : old.length ≤ got.length) :
    overwrite old got = got := by
  rw [overwrite, List.drop_of_length_le h, List.append_nil]

@[simp] theorem length_overwrite {old got : List UInt8} (h : got.length ≤ old.length) :
    (overwrite old got).length = old.length := by
  rw [overwrite, List.length_append, List.length_drop]
  omega

theorem take_overwrite {old got : List UInt8} {k : ℕ} (h : k ≤ got.length) :
    (overwrite old got).take k = got.take k := by
  rw [overwrite, List.take_append_of_le_length h]

/-! ## Input streams -/

/-- **An input stream**: the bytes not yet read, and the flags `failbit`
and `eofbit`. -/
structure InStream where
  /-- What is left of the file. -/
  rest : List UInt8
  /-- `failbit`. -/
  fail : Bool := false
  /-- `eofbit`. -/
  eof : Bool := false
  deriving DecidableEq, Repr

namespace InStream

/-- `good()`: no flag is set. -/
def good (is : InStream) : Bool := !is.fail && !is.eof

/-- `istream::read(s, n)`: the bytes it stores at `s`, and the stream after
it. -/
def read (n : ℕ) (is : InStream) : List UInt8 × InStream :=
  if is.good then
    if n ≤ is.rest.length then (is.rest.take n, { is with rest := is.rest.drop n })
    -- the end of the file comes first: what is left, and both flags
    else (is.rest, { rest := [], fail := true, eof := true })
  else ([], { is with fail := true })

/-- A read into a word of `w` bytes whose value was `old`: the bytes read
replace its low bytes. -/
def readLE (w old : ℕ) (is : InStream) : ℕ × InStream :=
  let r := is.read w
  (ofBytesLE (overwrite (toBytesLE w old) r.1), r.2)

/-- A read into an array of `n` words of `w` bytes whose values were
`old`, by one `read` of all its bytes. -/
def readWords (w n : ℕ) (old : ℕ → ℕ) (is : InStream) : (ℕ → ℕ) × InStream :=
  let r := is.read (w * n)
  (fun i => if i < n then wordAt w (overwrite (encodeWords w old n) r.1) i else old i, r.2)

@[simp] theorem good_mk (l : List UInt8) : good ⟨l, false, false⟩ = true := rfl

/-- A word read leaves the stream as the read of its bytes does. -/
@[simp] theorem readLE_snd (w old : ℕ) (is : InStream) : (is.readLE w old).2 = (is.read w).2 :=
  rfl

theorem read_of_le {is : InStream} {n : ℕ} (hg : is.good = true) (h : n ≤ is.rest.length) :
    is.read n = (is.rest.take n, { is with rest := is.rest.drop n }) := by
  rw [read, if_pos hg, if_pos h]

theorem read_of_lt {is : InStream} {n : ℕ} (hg : is.good = true) (h : is.rest.length < n) :
    is.read n = (is.rest, { rest := [], fail := true, eof := true }) := by
  rw [read, if_pos hg, if_neg (Nat.not_le.mpr h)]

theorem read_of_not_good {is : InStream} (n : ℕ) (hg : is.good = false) :
    is.read n = ([], { is with fail := true }) := by
  rw [read, hg]
  rfl

/-- A good stream gives the bytes it starts with and stays good. -/
theorem read_append {l : List UInt8} {n : ℕ} (more : List UInt8) (hl : l.length = n) :
    read n ⟨l ++ more, false, false⟩ = (l, ⟨more, false, false⟩) := by
  rw [read_of_le rfl (by rw [List.length_append]; omega), List.take_append_of_le_length hl.ge,
    List.take_of_length_le hl.le, List.drop_append_of_le_length hl.ge,
    List.drop_of_length_le hl.le, List.nil_append]

/-- **A word read back**: a good stream that starts with the encoding of a
word gives the word, and stays good on what follows. -/
theorem readLE_toBytesLE {w x : ℕ} (old : ℕ) (more : List UInt8) (h : x < 256 ^ w) :
    readLE w old ⟨toBytesLE w x ++ more, false, false⟩ = (x, ⟨more, false, false⟩) := by
  rw [readLE, read_append more (length_toBytesLE w x)]
  rw [overwrite_of_length_le (by rw [length_toBytesLE, length_toBytesLE]),
    ofBytesLE_toBytesLE_of_lt h]

/-- **An array read back.** -/
theorem readWords_encodeWords {w n : ℕ} (f old : ℕ → ℕ) (more : List UInt8)
    (h : ∀ i < n, f i < 256 ^ w) :
    readWords w n old ⟨encodeWords w f n ++ more, false, false⟩
      = (fun i => if i < n then f i else old i, ⟨more, false, false⟩) := by
  rw [readWords, read_append more (length_encodeWords w f n)]
  have hover : overwrite (encodeWords w old n) (encodeWords w f n) = encodeWords w f n ++ [] := by
    rw [overwrite_of_length_le (by rw [length_encodeWords, length_encodeWords]),
      List.append_nil]
  refine Prod.ext (funext fun i => ?_) rfl
  dsimp only
  split
  · rename_i hi
    rw [hover, wordAt_encodeWords f [] hi, Nat.mod_eq_of_lt (h i hi)]
  · rfl

/-- A stream that is not good stores nothing: a word read from it keeps
its value. -/
theorem readLE_of_not_good {is : InStream} {w old : ℕ} (hg : is.good = false)
    (h : old < 256 ^ w) :
    readLE w old is = (old, { is with fail := true }) := by
  rw [readLE, read_of_not_good w hg]
  exact Prod.ext (ofBytesLE_toBytesLE_of_lt h) rfl

/-- **Reads of a file fail only at its end**: `failbit` comes with
`eofbit`. -/
def FailsAtEof (is : InStream) : Prop := is.fail = true → is.eof = true

theorem failsAtEof_mk (l : List UInt8) : FailsAtEof ⟨l, false, false⟩ := fun h => absurd h nofun

theorem FailsAtEof.read {is : InStream} (h : FailsAtEof is) (n : ℕ) :
    FailsAtEof (is.read n).2 := by
  unfold InStream.read
  split
  · split
    · exact h
    · exact fun _ => rfl
  · rename_i hg
    -- a stream that is not good already has `eofbit`, or `failbit` and so `eofbit`
    intro _
    show is.eof = true
    cases hf : is.fail with
    | false => simpa [good, hf] using hg
    | true => exact h hf

end InStream

end Bytes
