import FsXfs.Superblock
import FsXfs.Lib.Fields
import Mathlib.Data.List.TakeWhile

/-!
# Extents of a fork

`extent.rs`, as far as a parsed list goes: a run of file blocks mapped to a run of filesystem
blocks, the search for the extent over one file block, and the check every extent list passes
before the driver acts on it (`Filesystem::data_extents`).

`lookup` is the binary search `partition_point` makes. A fork's list is sorted by file offset and
does not overlap (`Sorted`), and on such a list the search and a scan from the front stop at the
same extent.
-/

namespace FsXfs

set_option autoImplicit false

structure Extent where
  startoff : ℕ
  startblock : ℕ
  blockcount : ℕ
  unwritten : Bool
  deriving DecidableEq, Repr

namespace Extent

def endOffset (e : Extent) : ℕ :=
  e.startoff + e.blockcount

def contains (e : Extent) (off : ℕ) : Bool :=
  decide (e.startoff ≤ off) && decide (off < e.endOffset)

def map (e : Extent) (off : ℕ) : Option ℕ :=
  if e.contains off then some (e.startblock + (off - e.startoff)) else none

def Holds (e : Extent) (b : ℕ) : Prop :=
  e.startblock ≤ b ∧ b < e.startblock + e.blockcount

theorem contains_iff {e : Extent} {off : ℕ} :
    e.contains off = true ↔ e.startoff ≤ off ∧ off < e.startoff + e.blockcount := by
  simp only [contains, Bool.and_eq_true, decide_eq_true_eq]
  rfl

theorem map_eq_some {e : Extent} {off b : ℕ} :
    e.map off = some b ↔ e.contains off = true ∧ b = e.startblock + (off - e.startoff) := by
  unfold map
  split
  · next hc => simp [hc, eq_comm]
  · next hc => simp [hc]

end Extent

/-- Sorted by file offset and not overlapping, each extent covering at least one block: what
`parse_list` accepts. -/
def Sorted : List Extent → Prop
  | [] => True
  | [e] => 0 < e.blockcount
  | e :: f :: rest => 0 < e.blockcount ∧ e.endOffset ≤ f.startoff ∧ Sorted (f :: rest)

instance decidableSorted : DecidablePred Sorted
  | [] => .isTrue trivial
  | [e] => inferInstanceAs (Decidable (0 < e.blockcount))
  | e :: f :: rest =>
    have := decidableSorted (f :: rest)
    inferInstanceAs (Decidable (0 < e.blockcount ∧ e.endOffset ≤ f.startoff ∧ Sorted (f :: rest)))

def lookup (extents : List Extent) (off : ℕ) : Option Extent :=
  ((extents.dropWhile fun e => decide (e.endOffset ≤ off)).head?).filter fun e => e.contains off

theorem lookup_mem {extents : List Extent} {off : ℕ} {e : Extent}
    (h : lookup extents off = some e) : e ∈ extents ∧ e.contains off = true := by
  unfold lookup at h
  rw [Option.filter_eq_some_iff] at h
  obtain ⟨hhead, hc⟩ := h
  have hmem : e ∈ extents.dropWhile fun e => decide (e.endOffset ≤ off) :=
    List.mem_of_mem_head? hhead
  exact ⟨(List.dropWhile_suffix _).subset hmem, hc⟩

/-! ## Reading a fork -/

structure DataFork where
  realtime : Bool
  extents : List Extent

/-- A mounted volume as the read paths see it: its geometry, the device as the mount reads it, and
what reading an inode's fork returns, which is whatever the image makes it. -/
structure Filesystem where
  sb : Superblock
  accepted : sb.Accepted
  device : Device
  readFork : ℕ → Except Error DataFork

namespace Filesystem

def checkExtentsInBounds (sb : Superblock) (ino : ℕ) (extents : List Extent) : Except Error Unit :=
  match extents.zipIdx.find? fun p => !sb.extentInBounds p.1.startblock p.1.blockcount with
  | none => .ok ()
  | some (e, i) =>
    .error (.badSuperblock s!"inode {ino}: extent {i} maps {e.blockcount} blocks at block {e.startblock}, which is not inside one allocation group past its headers")

def dataExtents (fs : Filesystem) (ino : ℕ) : Except Error (List Extent) := do
  let fork ← fs.readFork ino
  ensure (fork.realtime = false)
    (.unsupportedFeature s!"inode {ino} keeps its data on the real-time device")
  checkExtentsInBounds fs.sb ino fork.extents
  pure fork.extents

def readFsblock (fs : Filesystem) (fsblock : ℕ) : Except Error (List UInt8) :=
  fs.device.readAt (fs.sb.fsblockOffset fsblock) fs.sb.blocksize

theorem checkExtentsInBounds_ok {sb : Superblock} {ino : ℕ} {extents : List Extent} {u : Unit}
    (h : checkExtentsInBounds sb ino extents = .ok u) :
    ∀ e ∈ extents, sb.extentInBounds e.startblock e.blockcount = true := by
  unfold checkExtentsInBounds at h
  split at h
  · next hnone =>
    intro e he
    obtain ⟨i, hi⟩ := List.mem_iff_getElem?.mp he
    have hmem : (e, i) ∈ extents.zipIdx := List.mk_mem_zipIdx_iff_getElem?.mpr hi
    simpa using List.find?_eq_none.mp hnone (e, i) hmem
  · cases h

end Filesystem

/-! ## Packed records -/

section

open Bytes

abbrev extentRecordSize : ℕ := 16

namespace Extent

def toBytes (e : Extent) : Except Error (List UInt8) := do
  ensure (e.startoff < 2 ^ 54) (.badSuperblock s!"startoff {e.startoff} exceeds the 54-bit field")
  ensure (e.startblock < 2 ^ 52)
    (.badSuperblock s!"startblock {e.startblock} exceeds its field width")
  ensure (e.blockcount ≠ 0 ∧ e.blockcount < 2 ^ 21)
    (.badSuperblock s!"blockcount {e.blockcount} is zero or exceeds the 21-bit field")
  let high := (if e.unwritten then 2 ^ 63 else 0) ||| e.startoff * 2 ^ 9 ||| e.startblock / 2 ^ 43
  let low := e.startblock * 2 ^ 21 % 2 ^ 64 ||| e.blockcount
  pure (beBytes 8 high ++ beBytes 8 low)

def parse (buf : List UInt8) : Except Error Extent := do
  ensure (extentRecordSize ≤ buf.length)
    (.badSuperblock s!"extent record needs {extentRecordSize} bytes, got {buf.length}")
  let high := beValue (slice buf 0 8)
  let low := beValue (slice buf 8 8)
  let e : Extent :=
    { unwritten := decide (high / 2 ^ 63 ≠ 0)
      startoff := high / 2 ^ 9 % 2 ^ 54
      startblock := high % 2 ^ 9 * 2 ^ 43 ||| low / 2 ^ 21
      blockcount := low % 2 ^ 21 }
  ensure (e.blockcount ≠ 0) (.badSuperblock "extent record has a block count of zero")
  pure e

def Fits (e : Extent) : Prop :=
  e.startoff < 2 ^ 54 ∧ e.startblock < 2 ^ 52 ∧ e.blockcount ≠ 0 ∧ e.blockcount < 2 ^ 21

def Words (e : Extent) (high low : ℕ) : Prop :=
  high = e.unwritten.toNat * 2 ^ 63 + e.startoff * 2 ^ 9 + e.startblock / 2 ^ 43 ∧
    low = e.startblock % 2 ^ 43 * 2 ^ 21 + e.blockcount

theorem toBytes_eq_ok {e : Extent} {buf : List UInt8} : e.toBytes = .ok buf ↔
    e.Fits ∧ ∃ high low, e.Words high low ∧ beBytes 8 high ++ beBytes 8 low = buf := by
  simp only [toBytes, bind_eq_ok, ensure_eq_ok, exists_and_left, exists_const, pure, Except.pure,
    Except.ok.injEq, Fits, Words]
  simp only [and_assoc]
  refine and_congr_right fun hoff => and_congr_right fun hblock => and_congr_right fun hpos =>
    and_congr_right fun hcount => ?_
  have hhigh : (if e.unwritten then 2 ^ 63 else 0) ||| e.startoff * 2 ^ 9 ||| e.startblock / 2 ^ 43 =
      e.unwritten.toNat * 2 ^ 63 + e.startoff * 2 ^ 9 + e.startblock / 2 ^ 43 := by
    have hflag : (if e.unwritten then 2 ^ 63 else 0) = e.unwritten.toNat * 2 ^ 63 := by
      cases e.unwritten <;> rfl
    rw [hflag, Nat.or_assoc, or_eq_add e.startoff (by omega), or_eq_add _ (by omega), Nat.add_assoc]
  have hlow : e.startblock * 2 ^ 21 % 2 ^ 64 ||| e.blockcount =
      e.startblock % 2 ^ 43 * 2 ^ 21 + e.blockcount := by
    have hmod : e.startblock * 2 ^ 21 % 2 ^ 64 = e.startblock % 2 ^ 43 * 2 ^ 21 := by omega
    rw [hmod, or_eq_add _ hcount]
  rw [hhigh, hlow]
  simp

theorem toBytes_length {e : Extent} {bytes : List UInt8} (h : e.toBytes = .ok bytes) :
    bytes.length = 16 := by
  obtain ⟨-, high, low, -, rfl⟩ := toBytes_eq_ok.mp h
  rw [List.length_append, beBytes_length, beBytes_length]

theorem parse_eq_ok {e : Extent} {buf : List UInt8} (h : buf.length = 16) :
    parse buf = .ok e ↔ e.Fits ∧ e.Words (beValue (slice buf 0 8)) (beValue (slice buf 8 8)) := by
  have hhigh : beValue (slice buf 0 8) < 2 ^ 64 := beValue_slice_lt buf 0 8
  have hlow : beValue (slice buf 8 8) < 2 ^ 64 := beValue_slice_lt buf 8 8
  obtain ⟨startoff, startblock, blockcount, unwritten⟩ := e
  simp only [parse, bind_eq_ok, ensure_eq_ok, exists_and_left, exists_const, pure, Except.pure,
    Except.ok.injEq, Extent.mk.injEq, extentRecordSize, Fits, Words, h]
  generalize beValue (slice buf 0 8) = high at *
  rw [or_eq_add _ (by omega)]
  have hflag : (decide (high / 2 ^ 63 ≠ 0) = unwritten) ↔ high / 2 ^ 63 = unwritten.toNat := by
    cases unwritten with
    | false => simp
    | true =>
      simp
      omega
  rw [hflag]
  omega

theorem toBytes_iff_parse {e : Extent} {buf : List UInt8} (h : buf.length = 16) :
    e.toBytes = .ok buf ↔ parse buf = .ok e := by
  rw [toBytes_eq_ok, parse_eq_ok h]
  refine and_congr_right fun hfits => ⟨?_, fun hwords => ⟨_, _, hwords, ?_⟩⟩
  · rintro ⟨high, low, hwords, rfl⟩
    obtain ⟨hoff, hblock, hpos, hcount⟩ := hfits
    have hbit := e.unwritten.toNat_lt
    obtain ⟨hhigh, hlow⟩ := id hwords
    rw [slice_append_left (by simp), slice_append_right (by simp), beBytes_length,
      slice_all (beBytes_length _ _), Nat.sub_self, slice_all (beBytes_length _ _),
      beValue_beBytes_of_lt (by omega), beValue_beBytes_of_lt (by omega)]
    exact hwords
  · rw [beBytes_beValue (slice_length (by omega)), beBytes_beValue (slice_length (by omega))]
    simp only [slice, List.drop_zero]
    rw [← List.take_add, List.take_of_length_le (le_of_eq h)]

/-- Packing and unpacking are inverse, and a record that does not fit its fields is refused. -/
theorem packed_record (e : Extent) (buf : List UInt8) (hlen : buf.length = 16) :
    (e.Fits → ∃ packed, e.toBytes = .ok packed ∧ parse packed = .ok e) ∧
      (parse buf = .ok e → e.toBytes = .ok buf) ∧ (¬e.Fits → ∃ why, e.toBytes = .error why) := by
  refine ⟨fun hfits => ?_, (toBytes_iff_parse hlen).mpr, fun hfits => ?_⟩
  · have hpacked := (toBytes_eq_ok (e := e)).mpr ⟨hfits, _, _, ⟨rfl, rfl⟩, rfl⟩
    exact ⟨_, hpacked, (toBytes_iff_parse (toBytes_length hpacked)).mp hpacked⟩
  · cases hpack : e.toBytes with
    | error why => exact ⟨why, rfl⟩
    | ok packed => exact absurd (toBytes_eq_ok.mp hpack).1 hfits

theorem packed_record_split : ∃ packed, (⟨5, 2 ^ 43 + 7, 3, true⟩ : Extent).toBytes = .ok packed ∧
    parse packed = .ok ⟨5, 2 ^ 43 + 7, 3, true⟩ :=
  (packed_record ⟨5, 2 ^ 43 + 7, 3, true⟩ (List.replicate 16 0) rfl).1 (by unfold Fits; decide)

end Extent

end

end FsXfs
