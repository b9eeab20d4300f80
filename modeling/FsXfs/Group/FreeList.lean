import FsXfs.Lib.Ring
import FsXfs.Inode.Core
import FsXfs.Quota

/-!
# A group's header and its free list

`ag.rs` and `agfl.rs`: the fields of the AGF, and the ring of blocks the group's trees grow from.
The ring's entries are in a sector of their own; the AGF says where they begin and how many there
are.
-/

namespace FsXfs.Group

open Bytes Quota

set_option autoImplicit false

abbrev xfsAgfMagic : ℕ := 0x58414746
abbrev xfsAgflMagic : ℕ := 0x5841464c
abbrev xfsAgfSize : ℕ := 224

abbrev agfSeqno : ℕ := 8
abbrev agfLength : ℕ := 12
abbrev agfRoots : ℕ := 16
abbrev agfLevels : ℕ := 28
abbrev agfFlfirst : ℕ := 40
abbrev agfFllast : ℕ := 44
abbrev agfFlcount : ℕ := 48
abbrev agfFreeblks : ℕ := 52
abbrev agfLongest : ℕ := 56
abbrev agfBtreeblks : ℕ := 60
abbrev agfUuid : ℕ := 64
abbrev agfRmapBlocks : ℕ := 80
abbrev agfRefcountBlocks : ℕ := 84
abbrev agfRefcountRoot : ℕ := 88
abbrev agfRefcountLevel : ℕ := 92
abbrev agfCrc : ℕ := 216

abbrev bno : ℕ := 0
abbrev cnt : ℕ := 1
abbrev rmap : ℕ := 2

/-! ## The AGF -/

structure Agf where
  seqno : ℕ
  length : ℕ
  root : ℕ → ℕ
  level : ℕ → ℕ
  flfirst : ℕ
  fllast : ℕ
  flcount : ℕ
  freeblks : ℕ
  longest : ℕ
  btreeblks : ℕ
  rmapBlocks : ℕ
  refcountRoot : ℕ
  refcountLevel : ℕ

def u64Max : ℕ := 2 ^ 64 - 1

section

variable (crc32c : List UInt8 → ℕ) (sb : Superblock)

def whenV5 (check : Except Error Unit) : Except Error Unit :=
  if sb.isV5 then check else pure ()

def checkIdentity (what : String) (buf : List UInt8) (uuidOff seqnoOff agno : ℕ) :
    Except Error Unit := do
  ensure (slice buf uuidOff 16 = sb.metaUuid) (.blockIdentityMismatch what agno u64Max)
  ensure (beAt buf seqnoOff 4 = agno) (.blockIdentityMismatch what agno (beAt buf seqnoOff 4))

-- the stored checksum is little-endian
def verifyCrc (what : String) (buf : List UInt8) (crcOff agno : ℕ) : Except Error Unit :=
  ensure (leValue (slice buf crcOff 4) = crc32cWithZeroedCrc crc32c (buf.take sb.sectsize) crcOff)
    (.checksumMismatch what agno)

def agfOf (buf : List UInt8) : Agf where
  seqno := beAt buf agfSeqno 4
  length := beAt buf agfLength 4
  root tree := beAt buf (agfRoots + 4 * tree) 4
  level tree := beAt buf (agfLevels + 4 * tree) 4
  flfirst := beAt buf agfFlfirst 4
  fllast := beAt buf agfFllast 4
  flcount := beAt buf agfFlcount 4
  freeblks := beAt buf agfFreeblks 4
  longest := beAt buf agfLongest 4
  btreeblks := beAt buf agfBtreeblks 4
  rmapBlocks := beAt buf agfRmapBlocks 4
  refcountRoot := beAt buf agfRefcountRoot 4
  refcountLevel := beAt buf agfRefcountLevel 4

def Agf.parse (buf : List UInt8) (agno : ℕ) : Except Error Agf := do
  ensure (xfsAgfSize ≤ buf.length)
    (.badSuperblock s!"AGF needs {xfsAgfSize} bytes, got {buf.length}")
  ensure (beAt buf 0 4 = xfsAgfMagic)
    (.badSuperblock s!"AGF for ag {agno} has magic {beAt buf 0 4}, expected {xfsAgfMagic}")
  whenV5 sb do
    verifyCrc crc32c sb "AGF" buf agfCrc agno
    checkIdentity sb "AGF" buf agfUuid agfSeqno agno
  let agf := agfOf buf
  ensure (agf.length ≤ sb.agblocks)
    (.badSuperblock s!"AGF ag {agno} length {agf.length} exceeds sb_agblocks {sb.agblocks}")
  ensure (agf.freeblks ≤ agf.length)
    (.badSuperblock s!"AGF ag {agno} freeblks {agf.freeblks} exceeds its own length {agf.length}")
  ensure (agf.longest ≤ agf.length)
    (.badSuperblock s!"AGF ag {agno} longest extent {agf.longest} exceeds its own length {agf.length}")
  pure agf

/-! ## The free list -/

abbrev agflCrc : ℕ := 32
abbrev nullAgblock : ℕ := 2 ^ 32 - 1

def agflHeader : ℕ :=
  if sb.isV5 then 36 else 0

def agflCapacity : ℕ :=
  (sb.sectsize - agflHeader sb) / 4

def lastHeaderBlock : ℕ :=
  3 * sb.sectsize / sb.blocksize

end

structure Agfl where
  raw : List UInt8
  first : ℕ
  last : ℕ
  count : ℕ
  capacity : ℕ
  length : ℕ
  deriving DecidableEq

namespace Agfl

section

variable (crc32c : List UInt8 → ℕ) (sb : Superblock)

def parse (buf : List UInt8) (agf : Agf) (agno : ℕ) : Except Error Agfl := do
  let cap := agflCapacity sb
  ensure (sb.sectsize ≤ buf.length)
    (.badSuperblock s!"AG {agno}: the free list is {buf.length} bytes, shorter than a {sb.sectsize}-byte sector")
  whenV5 sb do
    ensure (beAt buf 0 4 = xfsAgflMagic)
      (.badSuperblock s!"AG {agno}: the free list has magic {beAt buf 0 4}, expected {xfsAgflMagic}")
    ensure (leValue (slice buf agflCrc 4) = crc32cWithZeroedCrc crc32c buf agflCrc)
      (.checksumMismatch "AGFL" agno)
    checkIdentity sb "AGFL" buf 8 4 agno
  ensure (agf.flcount = 0 ∨ (agf.flfirst < cap ∧ agf.fllast < cap))
    (.badSuperblock s!"AG {agno}: the free list runs between entries {agf.flfirst} and {agf.fllast}, outside the {cap} entries the sector holds")
  let span := if agf.flcount = 0 then 0 else (agf.fllast + cap - agf.flfirst) % cap + 1
  ensure (agf.flcount ≤ cap ∧ span = agf.flcount)
    (.badSuperblock s!"AG {agno}: the free list says {agf.flcount} blocks between entries {agf.flfirst} and {agf.fllast}, which spans {span} of {cap}")
  pure ⟨buf.take sb.sectsize, agf.flfirst, agf.fllast, agf.flcount, cap, agf.length⟩

def entryAt (index : ℕ) : ℕ :=
  agflHeader sb + index * 4

def cell (agfl : Agfl) (index : ℕ) : ℕ :=
  beAt agfl.raw (entryAt sb index) 4

def entries (agfl : Agfl) : List ℕ :=
  Ring.window (agfl.cell sb) agfl.capacity agfl.first agfl.count

def emptied (agno : ℕ) : Error :=
  .unsupportedFeature s!"allocation group {agno}'s free list is empty, and refilling it is not implemented; the tree cannot grow here"

def filled (agno capacity : ℕ) : Error :=
  .unsupportedFeature s!"allocation group {agno}'s free list is full at {capacity} blocks, and returning one to free space instead is not implemented"

def take (agfl : Agfl) (agno : ℕ) : Except Error (ℕ × Agfl) := do
  ensure (agfl.count ≠ 0) (emptied agno)
  let block := agfl.cell sb agfl.first
  ensure (block ≠ nullAgblock ∧ lastHeaderBlock sb < block ∧ block < agfl.length)
    (.badSuperblock s!"AG {agno}: free-list entry {agfl.first} names block {block}, which is not a block of a {agfl.length}-block group past its headers")
  pure (block, { agfl with first := (agfl.first + 1) % agfl.capacity, count := agfl.count - 1 })

def put (agfl : Agfl) (agno block : ℕ) : Except Error Agfl := do
  ensure (agfl.count < agfl.capacity) (filled agno agfl.capacity)
  let index := if agfl.count = 0 then agfl.first else (agfl.last + 1) % agfl.capacity
  -- the slice of an entry past the sector panics
  ensure (entryAt sb index + 4 ≤ agfl.raw.length)
    (.panicked s!"free-list entry {index} is past the {agfl.raw.length} bytes of the sector")
  pure { agfl with
    raw := patch agfl.raw (entryAt sb index) (beBytes 4 block)
    last := index
    first := if agfl.count = 0 then index else agfl.first
    count := agfl.count + 1 }

def after (agfl : Agfl) : List UInt8 :=
  if sb.isV5 then
    patch agfl.raw agflCrc (leBytes 4 (crc32cWithZeroedCrc crc32c agfl.raw agflCrc))
  else agfl.raw

end

/-! ### What its steps keep -/

structure Ok (sb : Superblock) (agfl : Agfl) : Prop where
  raw_length : agfl.raw.length = sb.sectsize
  capacity_eq : agfl.capacity = agflCapacity sb
  count_le : agfl.count ≤ agfl.capacity
  first_lt : agfl.count ≠ 0 → agfl.first < agfl.capacity
  last_eq : agfl.count ≠ 0 → agfl.last = (agfl.first + (agfl.count - 1)) % agfl.capacity

section

variable {crc32c : List UInt8 → ℕ} {sb : Superblock} {agfl agfl' : Agfl} {agno block : ℕ}

@[simp] theorem length_entries (agfl : Agfl) : (agfl.entries sb).length = agfl.count :=
  Ring.length_window _ _ _ _

theorem first_add_span {first last cap : ℕ} (hfirst : first < cap) (hlast : last < cap) :
    (first + (last + cap - first) % cap) % cap = last := by
  rw [Nat.add_mod_mod]
  have hsum : first + (last + cap - first) = last + cap := by omega
  rw [hsum, Nat.add_mod_right, Nat.mod_eq_of_lt hlast]

theorem parse_spec {buf : List UInt8} {agf : Agf}
    (h : parse crc32c sb buf agf agno = .ok agfl) :
    agfl.Ok sb ∧ agfl.count = agf.flcount ∧ agfl.first = agf.flfirst ∧ agfl.last = agf.fllast ∧
      agfl.length = agf.length ∧ agfl.raw = buf.take sb.sectsize := by
  unfold parse at h
  simp only [bind_eq_ok, ensure_eq_ok, pure, Except.pure, Except.ok.injEq, exists_const] at h
  obtain ⟨hlen, -, -, hindex, ⟨hcount, hspan⟩, rfl⟩ := h
  refine ⟨⟨?_, rfl, hcount, fun hne => ?_, fun hne => ?_⟩, rfl, rfl, rfl, rfl, rfl⟩
  · rw [List.length_take]
    omega
  · exact (hindex.resolve_left hne).1
  · obtain ⟨hfirst, hlast⟩ := hindex.resolve_left hne
    rw [if_neg hne] at hspan
    rw [← hspan, Nat.add_sub_cancel, first_add_span hfirst hlast]

theorem take_spec (hok : agfl.Ok sb) (h : agfl.take sb agno = .ok (block, agfl')) :
    agfl.entries sb = block :: agfl'.entries sb ∧ agfl'.Ok sb ∧ agfl'.length = agfl.length ∧
      agfl'.raw = agfl.raw ∧ lastHeaderBlock sb < block ∧ block < agfl.length := by
  unfold take at h
  simp only [bind_eq_ok, ensure_eq_ok, pure, Except.pure, Except.ok.injEq, Prod.mk.injEq,
    exists_const] at h
  obtain ⟨hcount, ⟨-, hlo, hhi⟩, rfl, rfl⟩ := h
  have hfirst := hok.first_lt hcount
  have hlast := hok.last_eq hcount
  have hle := hok.count_le
  obtain ⟨n, hn⟩ := Nat.exists_eq_succ_of_ne_zero hcount
  refine ⟨?_, ⟨hok.raw_length, hok.capacity_eq, ?_, fun _ => ?_, fun hne => ?_⟩, rfl, rfl, hlo, hhi⟩
  · rw [entries, hn, Ring.window_cons _ hfirst]
    rfl
  · dsimp only
    omega
  · exact Nat.mod_lt _ (by omega)
  · dsimp only at hne ⊢
    rw [hlast, Nat.mod_add_mod]
    refine congrArg (· % agfl.capacity) ?_
    omega

theorem put_spec (hok : agfl.Ok sb) (hblock : block < 2 ^ 32)
    (h : agfl.put sb agno block = .ok agfl') :
    agfl'.entries sb = agfl.entries sb ++ [block] ∧ agfl'.Ok sb ∧ agfl'.length = agfl.length := by
  unfold put at h
  simp only [bind_eq_ok, ensure_eq_ok, pure, Except.pure, Except.ok.injEq, exists_const] at h
  obtain ⟨hroom, hfit, rfl⟩ := h
  have hcap := hok.capacity_eq
  set index := if agfl.count = 0 then agfl.first else (agfl.last + 1) % agfl.capacity with hindex
  set start := if agfl.count = 0 then index else agfl.first with hstart
  have hraw := hok.raw_length
  have hlt : index < agflCapacity sb := by
    by_cases hzero : agfl.count = 0
    · -- an empty list's first cell is in the ring because the write to it stayed in the sector
      unfold agflCapacity
      unfold entryAt at hfit
      omega
    · rw [hindex, if_neg hzero, ← hcap]
      exact Nat.mod_lt _ (by omega)
  have hstartlt : start < agfl.capacity := by
    by_cases hzero : agfl.count = 0
    · rw [hstart, if_pos hzero, hcap]
      exact hlt
    · rw [hstart, if_neg hzero]
      exact hok.first_lt hzero
  have hnext : (start + agfl.count) % agfl.capacity = index := by
    by_cases hzero : agfl.count = 0
    · rw [hzero, Nat.add_zero, Nat.mod_eq_of_lt hstartlt, hstart, if_pos hzero]
    · rw [hindex, if_neg hzero, hok.last_eq hzero, Nat.mod_add_mod, hstart, if_neg hzero]
      refine congrArg (· % agfl.capacity) ?_
      omega
  have hfit' : entryAt sb index + (beBytes 4 block).length ≤ agfl.raw.length := by
    exact hfit
  have hentries : agfl.entries sb = Ring.window (agfl.cell sb) agfl.capacity start agfl.count := by
    by_cases hzero : agfl.count = 0
    · rw [entries, hzero]
      rfl
    · rw [entries, hstart, if_neg hzero]
  refine ⟨?_, ⟨?_, hcap, hroom, fun _ => hstartlt, fun _ => ?_⟩, rfl⟩
  · set new : Agfl := ⟨patch agfl.raw (entryAt sb index) (beBytes 4 block), start, index,
      agfl.count + 1, agfl.capacity, agfl.length⟩
    have hsame : ∀ c, c ≠ (start + agfl.count) % agfl.capacity → new.cell sb c = agfl.cell sb c := by
      intro c hc
      rw [cell, beAt, slice_patch_of_outside hfit', cell, beAt]
      rw [beBytes_length]
      unfold entryAt
      omega
    have hnew : new.cell sb index = block := by
      have hself := slice_patch_self hfit'
      rw [beBytes_length] at hself
      rw [cell, beAt, hself, beValue_beBytes_of_lt hblock]
    have hpush := Ring.window_push hroom hsame
    rw [hnext, hnew] at hpush
    rw [hentries, ← hpush]
    rfl
  · rw [patch_length hfit']
    exact hraw
  · exact hnext.symm

end

end Agfl

end FsXfs.Group
