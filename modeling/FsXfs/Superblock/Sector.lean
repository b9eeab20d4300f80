import FsXfs.Lib.Fields
import FsXfs.Inode.Core
import FsXfs.Quota
import Mathlib.Data.List.DropRight

/-!
# The superblock's sector

`Superblock::parse` and `super_write::apply`: every field of the structure at its offset, the
checksum over the whole sector, and the features and geometry that a reader refuses.
-/

namespace FsXfs

open Bytes Quota

set_option autoImplicit false

/-- Every field of the structure on disk; `Superblock` has those the rest of the model reads. -/
structure WholeSuperblock extends Superblock where
  rblocks : ℕ
  rextents : ℕ
  rbmino : ℕ
  rsumino : ℕ
  rextsize : ℕ
  rbmblocks : ℕ
  -- the bytes of the label, without the zeros that fill the field
  fname : List UInt8
  rextslog : ℕ
  imaxPct : ℕ
  icount : ℕ
  ifree : ℕ
  fdblocks : ℕ
  frextents : ℕ
  uquotino : ℕ
  gquotino : ℕ
  qflags : ℕ
  flags : ℕ
  sharedVn : ℕ
  inoalignmt : ℕ
  unit : ℕ
  width : ℕ
  logsectlog : ℕ
  logsectsize : ℕ
  badFeatures2 : ℕ
  featuresCompat : ℕ
  featuresLogIncompat : ℕ
  spinoAlign : ℕ
  pquotino : ℕ
  lsn : ℕ
  deriving DecidableEq, Repr

namespace WholeSuperblock

abbrev xfsSbMagic : ℕ := 0x58465342
abbrev xfsSbSize : ℕ := 264
abbrev sbCrc : ℕ := 224

-- `incompat::SUPPORTED`, `incompat::NEEDSREPAIR`, `incompat::METADIR`
abbrev incompatSupported : ℕ := 0xef
abbrev needsRepairBit : ℕ := 4
abbrev metadirBit : ℕ := 8
abbrev metaUuidBit : ℕ := 2

-- `features2_flags::SUPPORTED`, and with `CRCBIT` on a version 5 superblock
def knownFeatures2 (isV5 : Bool) : ℕ :=
  if isV5 then 0x38a else 0x28a

def outside (bits mask : ℕ) : ℕ :=
  bits &&& (0xffffffff ^^^ mask)

def hex8 (n : ℕ) : String :=
  "0x" ++ String.ofList ((Nat.toDigits 16 n).leftpad 8 '0')

section

-- CRC32C over a buffer, and the bytes of `String::from_utf8_lossy`: nothing here depends on them
variable (crc32c : List UInt8 → ℕ) (lossy : List UInt8 → List UInt8)

/-! ## Reading -/

def verifyChecksum (buf : List UInt8) (sectsize : ℕ) : Except Error Unit := do
  ensure (sectsize ≤ buf.length)
    (.badSuperblock s!"need a full {sectsize}-byte sector to verify the superblock checksum, got {buf.length}")
  ensure (leValue (slice buf sbCrc 4) = crc32cWithZeroedCrc crc32c (buf.take sectsize) sbCrc)
    (.checksumMismatch "superblock" 0)

def verifyIfV5 (buf : List UInt8) (version sectsize : ℕ) : Except Error Unit :=
  if version = 5 then verifyChecksum crc32c buf sectsize else .ok ()

def rejectUnsupportedFeatures (featuresIncompat : ℕ) : Except Error Unit := do
  ensure (featuresIncompat.testBit needsRepairBit = false)
    (.unsupportedFeature "this volume is marked as needing repair (incompat needsrepair): run xfs_repair on it before mounting")
  let unknown := outside featuresIncompat incompatSupported
  let named := (if unknown.testBit metadirBit then ["the metadata directory tree (metadir)"] else []) ++
    (if outside unknown (2 ^ metadirBit) ≠ 0 then
      ["unknown bits " ++ hex8 (outside unknown (2 ^ metadirBit))] else [])
  ensure (unknown = 0)
    (.unsupportedFeature ("incompatible features not implemented: " ++ ", ".intercalate named))

def rejectLegacyFeatures (buf : List UInt8) (versionnum : ℕ) : Except Error Unit := do
  ensure (versionnum.testBit 9 = false)
    (.unsupportedFeature "legacy shared superblock (sharedbit)")
  let unknown := outside (beAt buf 200 4 ||| beAt buf 204 4) (knownFeatures2 (versionnum % 16 = 5))
  ensure (versionnum.testBit 15 = true → unknown = 0)
    (.unsupportedFeature ("unknown legacy features2 bits " ++ hex8 unknown))

def v5Field (isV5 : Bool) (buf : List UInt8) (at_ n : ℕ) : ℕ :=
  if isV5 then beAt buf at_ n else 0

def fieldsOf (buf : List UInt8) : WholeSuperblock :=
  let isV5 : Bool := beAt buf 100 2 % 16 = 5
  { blocksize := beAt buf 4 4
    dblocks := beAt buf 8 8
    rblocks := beAt buf 16 8
    rextents := beAt buf 24 8
    uuid := slice buf 32 16
    logstart := beAt buf 48 8
    rootino := beAt buf 56 8
    rbmino := beAt buf 64 8
    rsumino := beAt buf 72 8
    rextsize := beAt buf 80 4
    agblocks := beAt buf 84 4
    agcount := beAt buf 88 4
    rbmblocks := beAt buf 92 4
    logblocks := beAt buf 96 4
    versionnum := beAt buf 100 2
    sectsize := beAt buf 102 2
    inodesize := beAt buf 104 2
    inopblock := beAt buf 106 2
    fname := (lossy (slice buf 108 12)).rdropWhile (· = 0)
    blocklog := beAt buf 120 1
    sectlog := beAt buf 121 1
    inodelog := beAt buf 122 1
    inopblog := beAt buf 123 1
    agblklog := beAt buf 124 1
    rextslog := beAt buf 125 1
    inprogress := beAt buf 126 1
    imaxPct := beAt buf 127 1
    icount := beAt buf 128 8
    ifree := beAt buf 136 8
    fdblocks := beAt buf 144 8
    frextents := beAt buf 152 8
    uquotino := beAt buf 160 8
    gquotino := beAt buf 168 8
    qflags := beAt buf 176 2
    flags := beAt buf 178 1
    sharedVn := beAt buf 179 1
    inoalignmt := beAt buf 180 4
    unit := beAt buf 184 4
    width := beAt buf 188 4
    dirblklog := beAt buf 192 1
    logsectlog := beAt buf 193 1
    logsectsize := beAt buf 194 2
    logsunit := beAt buf 196 4
    features2 := beAt buf 200 4
    badFeatures2 := beAt buf 204 4
    featuresCompat := v5Field isV5 buf 208 4
    featuresRoCompat := v5Field isV5 buf 212 4
    featuresIncompat := v5Field isV5 buf 216 4
    featuresLogIncompat := v5Field isV5 buf 220 4
    spinoAlign := v5Field isV5 buf 228 4
    pquotino := v5Field isV5 buf 232 8
    lsn := v5Field isV5 buf 240 8
    metaUuid := if (v5Field isV5 buf 216 4).testBit metaUuidBit then slice buf 248 16
      else slice buf 32 16 }

def parse (buf : List UInt8) : Except Error WholeSuperblock := do
  ensure (xfsSbSize ≤ buf.length)
    (.badSuperblock s!"need {xfsSbSize} bytes, got {buf.length}")
  ensure (beAt buf 0 4 = xfsSbMagic) (.notXfs (beAt buf 0 4))
  let version := beAt buf 100 2 % 16
  ensure (4 ≤ version ∧ version ≤ 5)
    (.badSuperblock s!"unsupported version {version} (expected 4 or 5)")
  let sectsize := beAt buf 102 2
  ensure (512 ≤ sectsize ∧ sectsize ≤ 32768 ∧ sectsize.isPowerOfTwo)
    (.badSuperblock s!"sectsize {sectsize} is not a sane power of two")
  verifyIfV5 crc32c buf version sectsize
  rejectLegacyFeatures buf (beAt buf 100 2)
  let sb := fieldsOf lossy buf
  rejectUnsupportedFeatures sb.featuresIncompat
  sb.validate
  return sb

/-! ## Writing -/

/-- The numbers of the structure: offset, width in bytes, value. -/
def numbers (sb : WholeSuperblock) : List (ℕ × ℕ × ℕ) :=
  [(0, 4, xfsSbMagic), (4, 4, sb.blocksize), (8, 8, sb.dblocks), (16, 8, sb.rblocks),
    (24, 8, sb.rextents), (48, 8, sb.logstart), (56, 8, sb.rootino), (64, 8, sb.rbmino),
    (72, 8, sb.rsumino), (80, 4, sb.rextsize), (84, 4, sb.agblocks), (88, 4, sb.agcount),
    (92, 4, sb.rbmblocks), (96, 4, sb.logblocks), (100, 2, sb.versionnum), (102, 2, sb.sectsize),
    (104, 2, sb.inodesize), (106, 2, sb.inopblock), (120, 1, sb.blocklog), (121, 1, sb.sectlog),
    (122, 1, sb.inodelog), (123, 1, sb.inopblog), (124, 1, sb.agblklog), (125, 1, sb.rextslog),
    (126, 1, sb.inprogress), (127, 1, sb.imaxPct), (128, 8, sb.icount), (136, 8, sb.ifree),
    (144, 8, sb.fdblocks), (152, 8, sb.frextents), (160, 8, sb.uquotino), (168, 8, sb.gquotino),
    (176, 2, sb.qflags), (178, 1, sb.flags), (179, 1, sb.sharedVn), (180, 4, sb.inoalignmt),
    (184, 4, sb.unit), (188, 4, sb.width), (192, 1, sb.dirblklog), (193, 1, sb.logsectlog),
    (194, 2, sb.logsectsize), (196, 4, sb.logsunit), (200, 4, sb.features2),
    (204, 4, sb.badFeatures2)]

def v5Numbers (sb : WholeSuperblock) : List (ℕ × ℕ × ℕ) :=
  [(208, 4, sb.featuresCompat), (212, 4, sb.featuresRoCompat), (216, 4, sb.featuresIncompat),
    (220, 4, sb.featuresLogIncompat), (228, 4, sb.spinoAlign), (232, 8, sb.pquotino),
    (240, 8, sb.lsn)]

def written (sb : WholeSuperblock) : List (ℕ × ℕ × ℕ) :=
  sb.numbers ++ if sb.isV5 then sb.v5Numbers else []

def writesMetaUuid (sb : WholeSuperblock) : Bool :=
  sb.isV5 && sb.featuresIncompat.testBit metaUuidBit

def fields (sb : WholeSuperblock) : List (ℕ × List UInt8) :=
  sb.written.map (fun f => (f.1, beBytes f.2.1 f.2.2)) ++
    [(32, sb.uuid), (108, sb.fname.takeD 12 0)] ++
    if sb.writesMetaUuid then [(248, sb.metaUuid)] else []

def stampCrc (sectsize : ℕ) (buf : List UInt8) : List UInt8 :=
  patch buf sbCrc (leBytes 4 (crc32cWithZeroedCrc crc32c (buf.take sectsize) sbCrc))

def apply (buf : List UInt8) (sb : WholeSuperblock) : Except Error (List UInt8) := do
  ensure (sb.sectsize ≤ buf.length)
    (.badSuperblock s!"a superblock is {sb.sectsize} bytes and the buffer is {buf.length}")
  let out := putAll buf sb.fields
  return if sb.isV5 then stampCrc crc32c sb.sectsize out else out

/-! ## What is accepted -/

/-- What `parse` asks of a buffer. -/
structure Readable (buf : List UInt8) : Prop where
  size : xfsSbSize ≤ buf.length
  magic : beAt buf 0 4 = xfsSbMagic
  version : 4 ≤ beAt buf 100 2 % 16 ∧ beAt buf 100 2 % 16 ≤ 5
  sector : 512 ≤ beAt buf 102 2 ∧ beAt buf 102 2 ≤ 32768 ∧ (beAt buf 102 2).isPowerOfTwo
  checksum : verifyIfV5 crc32c buf (beAt buf 100 2 % 16) (beAt buf 102 2) = .ok ()
  legacy : rejectLegacyFeatures buf (beAt buf 100 2) = .ok ()
  incompat : rejectUnsupportedFeatures (fieldsOf lossy buf).featuresIncompat = .ok ()
  valid : (fieldsOf lossy buf).validate = .ok ()

theorem parse_eq_ok {buf : List UInt8} {sb : WholeSuperblock} :
    parse crc32c lossy buf = .ok sb ↔ Readable crc32c lossy buf ∧ fieldsOf lossy buf = sb := by
  unfold parse
  simp only [bind_eq_ok, ensure_eq_ok, exists_and_left, exists_const, pure, Except.pure,
    Except.ok.injEq]
  constructor
  · rintro ⟨hsize, hmagic, hversion, hsector, _, hsum, _, hlegacy, _, hincompat, _, hvalid, rfl⟩
    exact ⟨⟨hsize, hmagic, hversion, hsector, hsum, hlegacy, hincompat, hvalid⟩, rfl⟩
  · rintro ⟨h, rfl⟩
    exact ⟨h.size, h.magic, h.version, h.sector, (), h.checksum, (), h.legacy, (), h.incompat, (),
      h.valid, rfl⟩

theorem parse_accepted {buf : List UInt8} {sb : WholeSuperblock}
    (h : parse crc32c lossy buf = .ok sb) : sb.toSuperblock.Accepted := by
  obtain ⟨hread, rfl⟩ := (parse_eq_ok crc32c lossy).mp h
  have hsize : 264 ≤ buf.length := hread.size
  exact
    { dblocks_lt := beValue_slice_lt buf 8 8
      logstart_lt := beValue_slice_lt buf 48 8
      agblocks_lt := beValue_slice_lt buf 84 4
      agcount_lt := beValue_slice_lt buf 88 4
      logblocks_lt := beValue_slice_lt buf 96 4
      logsunit_lt := beValue_slice_lt buf 196 4
      uuid_length := slice_length (by omega)
      valid := hread.valid }

/-! ## What was written reads back -/

/-- Every field holds what it is given. -/
structure Fits (sb : WholeSuperblock) : Prop where
  numbers : ∀ f ∈ sb.written, f.2.2 < 256 ^ f.2.1
  uuid : sb.uuid.length = 16
  metaUuid : sb.metaUuid.length = 16

/-- A superblock as a reader has it: the label as the field holds it, and no field that its version
or its features leave out. -/
def readBack (sb : WholeSuperblock) : WholeSuperblock :=
  { sb with
    fname := (lossy (sb.fname.takeD 12 0)).rdropWhile (· = 0)
    featuresCompat := if sb.isV5 then sb.featuresCompat else 0
    featuresRoCompat := if sb.isV5 then sb.featuresRoCompat else 0
    featuresIncompat := if sb.isV5 then sb.featuresIncompat else 0
    featuresLogIncompat := if sb.isV5 then sb.featuresLogIncompat else 0
    spinoAlign := if sb.isV5 then sb.spinoAlign else 0
    pquotino := if sb.isV5 then sb.pquotino else 0
    lsn := if sb.isV5 then sb.lsn else 0
    metaUuid := if sb.writesMetaUuid then sb.metaUuid else sb.uuid }

section

variable {crc32c lossy} {sb : WholeSuperblock} {buf : List UInt8}

/-- The checksum as one more field. -/
def sumField (sb : WholeSuperblock) (crc : List UInt8) : List (ℕ × List UInt8) :=
  if sb.isV5 then [(sbCrc, crc)] else []

variable {crc : List UInt8}

theorem spans_fields (hfits : sb.Fits) (hcrc : crc.length = 4) :
    (spans (sb.fields ++ sb.sumField crc)).Pairwise Apart ∧
      ∀ r ∈ spans (sb.fields ++ sb.sumField crc), r.1 + r.2 ≤ xfsSbSize := by
  have huuid := hfits.uuid
  have hmeta := hfits.metaUuid
  cases hv5 : sb.isV5 with
  | false =>
    simp only [spans, fields, sumField, written, numbers, writesMetaUuid, hv5, List.map_append,
      List.map_cons, List.map_nil, beBytes_length, huuid, List.takeD_length, Bool.false_and,
      Bool.false_eq_true, if_false, List.append_nil]
    exact ⟨by decide, by decide⟩
  | true =>
    cases hbit : sb.featuresIncompat.testBit metaUuidBit with
    | false =>
      simp only [spans, fields, sumField, written, numbers, v5Numbers, writesMetaUuid, hv5, hbit,
        List.map_append, List.map_cons, List.map_nil, beBytes_length, huuid, List.takeD_length, hcrc,
        Bool.and_false, Bool.false_eq_true, if_false, if_true, List.append_nil]
      exact ⟨by decide, by decide⟩
    | true =>
      simp only [spans, fields, sumField, written, numbers, v5Numbers, writesMetaUuid, hv5, hbit,
        hmeta, List.map_append, List.map_cons, List.map_nil, beBytes_length, huuid,
        List.takeD_length, hcrc, Bool.and_true, if_true]
      exact ⟨by decide, by decide⟩

section

variable (hfits : sb.Fits) (hbuf : xfsSbSize ≤ buf.length) (hcrc : crc.length = 4)

include hfits hbuf hcrc

theorem fields_within :
    ∀ f ∈ sb.fields ++ sb.sumField crc, f.1 + f.2.length ≤ buf.length := by
  intro f hf
  have hspan : (f.1, f.2.length) ∈ spans (sb.fields ++ sb.sumField crc) :=
    List.mem_map_of_mem hf
  exact ((spans_fields hfits hcrc).2 _ hspan).trans hbuf

theorem beAt_fields :
    ∀ f ∈ sb.written, beAt (putAll buf (sb.fields ++ sb.sumField crc)) f.1 f.2.1 = f.2.2 := by
  intro f hf
  refine beValue_putAll (fields_within hfits hbuf hcrc) (spans_fields hfits hcrc).1 ?_
    (hfits.numbers f hf)
  refine List.mem_append_left _ (List.mem_append_left _ (List.mem_append_left _ ?_))
  exact List.mem_map_of_mem hf

theorem slice_fields {at_ n : ℕ} {new : List UInt8}
    (hmem : (at_, new) ∈ sb.fields ++ sb.sumField crc) (hn : new.length = n) :
    slice (putAll buf (sb.fields ++ sb.sumField crc)) at_ n = new := by
  subst hn
  exact slice_putAll_of_mem (fields_within hfits hbuf hcrc) (spans_fields hfits hcrc).1 hmem

end

theorem fieldsOf_eq {out : List UInt8} (hnum : ∀ f ∈ sb.written, beAt out f.1 f.2.1 = f.2.2)
    (huuid : slice out 32 16 = sb.uuid) (hfname : slice out 108 12 = sb.fname.takeD 12 0)
    (hmeta : sb.writesMetaUuid = true → slice out 248 16 = sb.metaUuid) :
    fieldsOf lossy out = readBack lossy sb := by
  have hversion : beAt out 100 2 = sb.versionnum :=
    hnum (100, 2, sb.versionnum) (by simp [written, numbers])
  have hisV5 : decide (sb.versionnum % 16 = 5) = sb.isV5 := rfl
  rw [writesMetaUuid] at hmeta
  cases hv5 : sb.isV5 with
  | false =>
    simp only [written, hv5, Bool.false_eq_true, if_false, List.append_nil, numbers,
      List.forall_mem_cons] at hnum
    simp only [fieldsOf, hversion, hisV5, hv5, v5Field, readBack, writesMetaUuid, huuid, hfname, hnum,
      Bool.false_and, Bool.false_eq_true, if_false, Nat.zero_testBit]
  | true =>
    simp only [written, hv5, if_true, numbers, v5Numbers, List.cons_append, List.nil_append,
      List.forall_mem_cons] at hnum
    rw [hv5, Bool.true_and] at hmeta
    cases hbit : sb.featuresIncompat.testBit metaUuidBit with
    | false =>
      simp only [fieldsOf, hversion, hisV5, hv5, v5Field, readBack, writesMetaUuid, huuid, hfname,
        hnum, hbit, Bool.and_false, Bool.false_eq_true, if_false, if_true]
    | true =>
      simp only [fieldsOf, hversion, hisV5, hv5, v5Field, readBack, writesMetaUuid, huuid, hfname,
        hnum, hbit, hmeta hbit, Bool.and_true, if_true]

theorem fieldsOf_fields (hfits : sb.Fits) (hbuf : xfsSbSize ≤ buf.length) (hcrc : crc.length = 4) :
    fieldsOf lossy (putAll buf (sb.fields ++ sb.sumField crc)) = readBack lossy sb := by
  have hmem : ∀ f ∈ [(32, sb.uuid), (108, sb.fname.takeD 12 0)],
      f ∈ sb.fields ++ sb.sumField crc := fun f hf =>
    List.mem_append_left _ (List.mem_append_left _ (List.mem_append_right _ hf))
  refine fieldsOf_eq (beAt_fields hfits hbuf hcrc) ?_ ?_ fun hmeta => ?_
  · exact slice_fields hfits hbuf hcrc (hmem _ List.mem_cons_self) hfits.uuid
  · exact slice_fields hfits hbuf hcrc (hmem _ (List.mem_cons_of_mem _ List.mem_cons_self))
      (List.takeD_length ..)
  · exact slice_fields hfits hbuf hcrc
      (List.mem_append_left _ (List.mem_append_right _ (by simp [hmeta]))) hfits.metaUuid

theorem verifyChecksum_stampCrc {sectsize : ℕ} (hcrc32c : ∀ bytes, crc32c bytes < 2 ^ 32)
    (hsect : sbCrc + 4 ≤ sectsize) (hbuf : sectsize ≤ buf.length) :
    verifyChecksum crc32c (stampCrc crc32c sectsize buf) sectsize = .ok () := by
  have hin : sbCrc + (leBytes 4 (crc32cWithZeroedCrc crc32c (buf.take sectsize) sbCrc)).length ≤
      sectsize := by rwa [leBytes_length]
  have htake : (buf.take sectsize).length = sectsize := by
    rw [List.length_take, Nat.min_eq_left hbuf]
  have hstored := slice_patch_self (hin.trans hbuf)
  rw [leBytes_length] at hstored
  have hzeroed : crc32cWithZeroedCrc crc32c ((stampCrc crc32c sectsize buf).take sectsize) sbCrc =
      crc32cWithZeroedCrc crc32c (buf.take sectsize) sbCrc := by
    rw [stampCrc, take_patch hin hbuf, crc32cWithZeroedCrc, patch_patch_self
      (hin.trans_eq htake.symm) (leBytes_length 4 _)]
    rfl
  simp only [verifyChecksum, bind_eq_ok, ensure_eq_ok, exists_and_left, exists_const]
  refine ⟨by rwa [stampCrc, patch_length (hin.trans hbuf)], ?_⟩
  rw [hzeroed, stampCrc, hstored, leValue_leBytes_of_lt (hcrc32c _)]

/-- A superblock whose fields hold what they are given and that a reader has no reason to refuse. -/
structure Storable (sb : WholeSuperblock) : Prop extends sb.Fits where
  version : 4 ≤ sb.versionnum % 16 ∧ sb.versionnum % 16 ≤ 5
  legacy : sb.versionnum.testBit 9 = false
  features2 : sb.versionnum.testBit 15 = true →
    outside (sb.features2 ||| sb.badFeatures2) (knownFeatures2 sb.isV5) = 0
  incompat : sb.isV5 = true → rejectUnsupportedFeatures sb.featuresIncompat = .ok ()
  valid : sb.validate = .ok ()

theorem Storable.sector (h : sb.Storable) :
    512 ≤ sb.sectsize ∧ sb.sectsize ≤ 32768 ∧ sb.sectsize.isPowerOfTwo := by
  have hv := h.valid
  simp only [Superblock.validate, bind_eq_ok, ensure_eq_ok, exists_and_left, exists_const] at hv
  obtain ⟨-, -, hsector, -⟩ := hv
  exact hsector

theorem apply_eq (hbuf : sb.sectsize ≤ buf.length) :
    apply crc32c buf sb = .ok (putAll buf (sb.fields ++ sb.sumField
      (leBytes 4 (crc32cWithZeroedCrc crc32c ((putAll buf sb.fields).take sb.sectsize) sbCrc)))) := by
  rw [apply, ensure_of hbuf]
  cases hv5 : sb.isV5 with
  | false =>
    simp only [sumField, hv5, Bool.false_eq_true, if_false, List.append_nil]
    rfl
  | true =>
    simp only [sumField, hv5, if_true, putAll, List.foldl_append]
    rfl

theorem parse_apply (hcrc32c : ∀ bytes, crc32c bytes < 2 ^ 32) (h : sb.Storable)
    (hbuf : sb.sectsize ≤ buf.length) :
    ∃ out, apply crc32c buf sb = .ok out ∧ out.length = buf.length ∧
      parse crc32c lossy out = .ok (readBack lossy sb) := by
  have hsector := h.sector
  have hsize : xfsSbSize ≤ buf.length := by
    show 264 ≤ buf.length
    omega
  set crc := leBytes 4 (crc32cWithZeroedCrc crc32c ((putAll buf sb.fields).take sb.sectsize) sbCrc)
    with hcrc
  have hlen : crc.length = 4 := leBytes_length 4 _
  set out := putAll buf (sb.fields ++ sb.sumField crc) with hout
  have hread : fieldsOf lossy out = readBack lossy sb := fieldsOf_fields h.toFits hsize hlen
  have hnum : ∀ f ∈ sb.numbers, beAt out f.1 f.2.1 = f.2.2 := fun f hf =>
    beAt_fields h.toFits hsize hlen f (List.mem_append_left _ hf)
  have hmagic := hnum (0, 4, xfsSbMagic) (by simp [numbers])
  have hversion := hnum (100, 2, sb.versionnum) (by simp [numbers])
  have hsectsize := hnum (102, 2, sb.sectsize) (by simp [numbers])
  have hf2 := hnum (200, 4, sb.features2) (by simp [numbers])
  have hbad := hnum (204, 4, sb.badFeatures2) (by simp [numbers])
  have hlength : out.length = buf.length := putAll_length (fields_within h.toFits hsize hlen)
  have hfields : (putAll buf sb.fields).length = buf.length :=
    putAll_length fun f hf => fields_within h.toFits hsize hlen f (List.mem_append_left _ hf)
  refine ⟨out, apply_eq hbuf, hlength, (parse_eq_ok crc32c lossy).mpr ⟨?_, hread⟩⟩
  exact
    { size := hlength ▸ hsize
      magic := hmagic
      version := by rw [hversion]; exact h.version
      sector := by rw [hsectsize]; exact hsector
      checksum := by
        rw [hversion, hsectsize, verifyIfV5]
        split
        next hv5 =>
          have hstamp : out = stampCrc crc32c sb.sectsize (putAll buf sb.fields) := by
            have hisV5 : sb.isV5 = true := decide_eq_true hv5
            rw [hout, sumField, hisV5, if_pos rfl, putAll, List.foldl_append]
            rfl
          rw [hstamp]
          exact verifyChecksum_stampCrc hcrc32c (le_trans (by decide) hsector.1) (hfields ▸ hbuf)
        · rfl
      legacy := by
        simp only [rejectLegacyFeatures, hversion, hf2, hbad, bind_eq_ok, ensure_eq_ok,
          exists_and_left, exists_const]
        exact ⟨h.legacy, h.features2⟩
      incompat := by
        rw [hread, readBack]
        show rejectUnsupportedFeatures (if sb.isV5 then sb.featuresIncompat else 0) = .ok ()
        split
        next hv5 => exact h.incompat hv5
        · decide
      valid := by
        rw [hread]
        exact h.valid }

end

end

end WholeSuperblock

end FsXfs
