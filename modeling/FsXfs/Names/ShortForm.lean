import FsXfs.Names.Operations

/-!
# Directories kept in their inode

The short form, byte by byte: `encode_short_form` and the writers that share it (`dir_write.rs`,
`create.rs`), and `read_short_form` (`dir.rs`). A header of two counts and the parent's number, then
the entries packed one after the other; where one number is wide, every number takes eight bytes.

The writer counts a number as wide past `maxShortInum`, the reader past `maxShortInumRead`.
-/

namespace FsXfs.Names

open Bytes

set_option autoImplicit false

/-! ## Types and entries -/

inductive FileType where
  | regular | directory | charDevice | blockDevice | fifo | socket | symlink
  deriving DecidableEq, Repr

def ftypeFromRaw (raw : ℕ) : Except Error (Option FileType) :=
  match raw with
  | 0 => .ok none
  | 1 => .ok (some .regular)
  | 2 => .ok (some .directory)
  | 3 => .ok (some .charDevice)
  | 4 => .ok (some .blockDevice)
  | 5 => .ok (some .fifo)
  | 6 => .ok (some .socket)
  | 7 => .ok (some .symlink)
  | 8 => .ok none
  | other => .error (.badSuperblock s!"directory entry file type {other} is not a defined value")

def ftypeToRaw : Option FileType → ℕ
  | none => 0
  | some .regular => 1
  | some .directory => 2
  | some .charDevice => 3
  | some .blockDevice => 4
  | some .fifo => 5
  | some .socket => 6
  | some .symlink => 7

theorem ftypeFromRaw_ftypeToRaw (t : Option FileType) : ftypeFromRaw (ftypeToRaw t) = .ok t := by
  cases t with
  | none => rfl
  | some t => cases t <;> rfl

structure DirEntry where
  name : List UInt8
  ino : ℕ
  ftype : Option FileType
  offset : ℕ
  deriving DecidableEq, Repr

structure ShortFormDir where
  parentIno : ℕ
  i8count : ℕ
  entries : List DirEntry
  deriving DecidableEq, Repr

structure SfEntry where
  name : List UInt8
  ino : ℕ
  ftype : Option FileType
  cookie : ℕ
  deriving DecidableEq, Repr

def DirEntry.sf (e : DirEntry) : SfEntry :=
  ⟨e.name, e.ino, e.ftype, e.offset⟩

/-! ## Cookies -/

-- `XFS_DIR2_DATA_ALIGN` and `XFS_DIR3_DATA_HDR_SIZE`
def dataAlign : ℕ := 8

def dataHdrSize : ℕ := 64

def cookieSpan (namelen : ℕ) (hasFtype : Bool) : ℕ :=
  (8 + 1 + namelen + hasFtype.toNat + 2 + (dataAlign - 1)) / dataAlign * dataAlign

def firstCookie (hasFtype : Bool) : ℕ :=
  dataHdrSize + cookieSpan 1 hasFtype + cookieSpan 2 hasFtype

def nextCookie (parsed : ShortFormDir) (hasFtype : Bool) : ℕ :=
  ((parsed.entries.map fun e => e.offset + cookieSpan e.name.length hasFtype).max?).getD
    (firstCookie hasFtype)

/-! ## The writer -/

-- `dir_write::MAX_SHORT_INUM`
def maxShortInum : ℕ := 0x7fffffff

def inoSize (wide : Bool) : ℕ :=
  if wide then 8 else 4

def typeByte (hasFtype : Bool) (ftype : Option FileType) : List UInt8 :=
  if hasFtype then beBytes 1 (ftypeToRaw ftype) else []

def encodeEntry (hasFtype wide : Bool) (e : SfEntry) : List UInt8 :=
  beBytes 1 e.name.length ++ beBytes 2 e.cookie ++ e.name ++ typeByte hasFtype e.ftype ++
    beBytes (inoSize wide) e.ino

def encodeEntries (hasFtype wide : Bool) : List SfEntry → Except Error (List UInt8)
  | [] => .ok []
  | e :: entries => do
    ensure (e.cookie ≤ 0xffff)
      (.unsupportedFeature s!"a directory offset of {e.cookie} is past what the two-byte field holds")
    let rest ← encodeEntries hasFtype wide entries
    pure (encodeEntry hasFtype wide e ++ rest)

def wideNumbers (max parent : ℕ) (inos : List ℕ) : ℕ :=
  (decide (max < parent)).toNat + inos.countP fun ino => max < ino

def encodeShortForm (parent : ℕ) (hasFtype : Bool) (entries : List SfEntry) (forkSpace : ℕ) :
    Except Error (List UInt8) := do
  let i8count := wideNumbers maxShortInum parent (entries.map SfEntry.ino)
  ensure (i8count ≤ 255)
    (.unsupportedFeature s!"a short-form directory holds {i8count} inode numbers past {maxShortInum} and the count field holds 255")
  let wide := decide (i8count ≠ 0)
  ensure (entries.length ≤ 255)
    (.unsupportedFeature s!"a short-form directory cannot hold {entries.length} entries")
  let body ← encodeEntries hasFtype wide entries
  let out := beBytes 1 entries.length ++ beBytes 1 i8count ++ beBytes (inoSize wide) parent ++ body
  ensure (out.length ≤ forkSpace)
    (.unsupportedFeature s!"the directory needs {out.length} bytes and the inode's fork holds {forkSpace}; growing it past the inode is not implemented")
  pure out

def usizeMax : ℕ := 2 ^ 64 - 1

def fitting (forkSpace : ℕ) (fork : List UInt8) : Option (List UInt8) :=
  if fork.length ≤ forkSpace then some fork else none

def renamedEntries (parsed : ShortFormDir) (hasFtype : Bool) (from_ to_ : List UInt8)
    (moved : DirEntry) : List SfEntry :=
  (parsed.entries.filter fun e => e.name ≠ from_).map DirEntry.sf ++
    [⟨to_, moved.ino, moved.ftype, nextCookie parsed hasFtype⟩]

def shortFormAfterRename (sb : Superblock) (parsed : ShortFormDir) (from_ to_ : List UInt8)
    (forkSpace : ℕ) : Except Error (List UInt8) := do
  let moved ← orElse (parsed.entries.find? fun e => e.name = from_)
    (.panicked "the caller checked this")
  encodeShortForm parsed.parentIno sb.hasFtype (renamedEntries parsed sb.hasFtype from_ to_ moved)
    forkSpace

structure BlockEntry where
  name : List UInt8
  ino : ℕ
  ftype : Option FileType
  deriving DecidableEq, Repr

-- a name the directory had keeps its cookie, and each new one takes the next
def cookiesFor (parsed : ShortFormDir) (hasFtype : Bool) : ℕ → List BlockEntry → List SfEntry
  | _, [] => []
  | next, e :: entries =>
    match parsed.entries.find? fun p => p.name = e.name ∧ p.ino = e.ino with
    | some p => ⟨e.name, e.ino, e.ftype, p.offset⟩ :: cookiesFor parsed hasFtype next entries
    | none =>
      ⟨e.name, e.ino, e.ftype, next⟩ ::
        cookiesFor parsed hasFtype (next + cookieSpan e.name.length hasFtype) entries

def shortFormOf (sb : Superblock) (parsed : ShortFormDir) (parent : ℕ) (entries : List BlockEntry)
    (forkSpace : ℕ) : Except Error (Option (List UInt8)) := do
  let fork ← encodeShortForm parent sb.hasFtype
    (cookiesFor parsed sb.hasFtype (nextCookie parsed sb.hasFtype) entries) usizeMax
  pure (fitting forkSpace fork)

def addedEntries (parsed : ShortFormDir) (hasFtype : Bool) (name : List UInt8) (ino : ℕ)
    (ftype : Option FileType) : List SfEntry :=
  parsed.entries.map DirEntry.sf ++ [⟨name, ino, ftype, nextCookie parsed hasFtype⟩]

def shortFormWithEntry (sb : Superblock) (parsed : ShortFormDir) (name : List UInt8) (ino : ℕ)
    (ftype : Option FileType) (forkSpace : ℕ) : Except Error (Option (List UInt8)) := do
  let fork ← encodeShortForm parsed.parentIno sb.hasFtype
    (addedEntries parsed sb.hasFtype name ino ftype) usizeMax
  pure (fitting forkSpace fork)

def keptEntries (parsed : ShortFormDir) (name : List UInt8) : List SfEntry :=
  (parsed.entries.filter fun e => e.name ≠ name).map DirEntry.sf

def shortFormWithoutEntry (sb : Superblock) (parsed : ShortFormDir) (name : List UInt8)
    (forkSpace : ℕ) : Except Error (List UInt8) := do
  ensure (parsed.entries.any (fun e => e.name = name) = true) .notFound
  encodeShortForm parsed.parentIno sb.hasFtype (keptEntries parsed name) forkSpace

-- `create.rs`: the fork of a directory just made
def emptyShortFormDir (parent : ℕ) : List UInt8 :=
  let wide := decide (0xffffffff < parent)
  beBytes 1 0 ++ beBytes 1 wide.toNat ++ beBytes (inoSize wide) parent

/-! ## The reader -/

-- `dir::MAX_SHORT_INUM`
def maxShortInumRead : ℕ := 0xffffffff

def maxInumber : ℕ := 2 ^ 56 - 1

def readSfIno (buf : List UInt8) (off : ℕ) (wide : Bool) : Except Error ℕ :=
  if wide then do
    let raw := beValue (slice buf off 8)
    ensure (raw ≤ maxInumber)
      (.badSuperblock s!"short-form directory: inode number {raw} sets bits above the 56-bit maximum")
    pure raw
  else .ok (beValue (slice buf off 4))

def checkEntryIno (sb : Superblock) (ino : ℕ) (what : String) : Except Error Unit := do
  ensure (ino ≠ 0) (.badSuperblock s!"{what}: inode number is zero")
  ensure (ino ≤ maxInumber)
    (.badSuperblock s!"{what}: inode number {ino} exceeds the 56-bit maximum")
  let ag := (sb.splitIno ino).1
  ensure (ag < sb.agcount)
    (.badSuperblock s!"{what}: inode number {ino} names allocation group {ag}, but there are only {sb.agcount}")

def readType (hasFtype : Bool) (buf : List UInt8) (off : ℕ) : Except Error (Option FileType) :=
  if hasFtype then ftypeFromRaw (beValue (slice buf off 1)) else .ok none

/-- The entries from `cur` on, `rest` being the directory from there to its end. -/
def readEntries (sb : Superblock) (ino : ℕ) (wide : Bool) :
    ℕ → ℕ → ℕ → List UInt8 → Except Error (List DirEntry × ℕ)
  | 0, _, cur, _ => .ok ([], cur)
  | count + 1, i, cur, rest => do
    ensure (3 ≤ rest.length)
      (.badSuperblock s!"inode {ino}: short-form entry {i} starts at {cur}, past the end of the directory")
    let namelen := beValue (slice rest 0 1)
    ensure (namelen ≠ 0) (.badSuperblock s!"inode {ino}: short-form entry {i} has an empty name")
    let offset := beValue (slice rest 1 2)
    let entsize := 3 + namelen + sb.hasFtype.toNat + inoSize wide
    ensure (entsize ≤ rest.length)
      (.badSuperblock s!"inode {ino}: short-form entry {i} of length {entsize} runs past the {cur + rest.length}-byte directory")
    let ftype ← readType sb.hasFtype rest (3 + namelen)
    let target ← readSfIno rest (3 + namelen + sb.hasFtype.toNat) wide
    checkEntryIno sb target s!"inode {ino}: short-form entry {i}"
    let (entries, end_) ← readEntries sb ino wide count (i + 1) (cur + entsize) (rest.drop entsize)
    pure (⟨slice rest 3 namelen, target, ftype, offset⟩ :: entries, end_)

structure DirInode where
  ino : ℕ
  isDir : Bool
  format : Format
  size : ℕ

def readShortForm (sb : Superblock) (inode : DirInode) (fork : List UInt8) :
    Except Error ShortFormDir := do
  ensure inode.isDir .notADirectory
  ensure (inode.format = .local_)
    (.badSuperblock s!"inode {inode.ino}: directory fork format is {Format.shown inode.format}, not the short (local) form")
  ensure (inode.size ≤ fork.length)
    (.badSuperblock s!"inode {inode.ino}: short-form directory claims {inode.size} bytes but its data fork holds {fork.length}")
  let sf := fork.take inode.size
  ensure (2 ≤ sf.length)
    (.badSuperblock s!"inode {inode.ino}: short-form directory is {sf.length} bytes, too short for its header")
  let count := beValue (slice sf 0 1)
  let i8count := beValue (slice sf 1 1)
  let wide := decide (i8count ≠ 0)
  let hdrSize := 2 + inoSize wide
  ensure (hdrSize ≤ sf.length)
    (.badSuperblock s!"inode {inode.ino}: short-form directory is {sf.length} bytes, too short for a {hdrSize}-byte header")
  let parent ← readSfIno sf 2 wide
  checkEntryIno sb parent s!"inode {inode.ino}: short-form parent"
  let (entries, end_) ← readEntries sb inode.ino wide count 0 hdrSize (sf.drop hdrSize)
  ensure (end_ = sf.length)
    (.badSuperblock s!"inode {inode.ino}: short-form directory's {count} entries end at {end_}, not at its declared size of {sf.length}")
  let foundWide := wideNumbers maxShortInumRead parent (entries.map DirEntry.ino)
  ensure (foundWide = i8count)
    (.badSuperblock s!"inode {inode.ino}: short-form header claims {i8count} inode numbers wider than 32 bits, but {foundWide} are")
  pure ⟨parent, i8count, entries⟩

/-! ## Reading back what was written -/

variable {front rest : List UInt8} {n : ℕ}

theorem slice_mid {mid : List UInt8} {at_ : ℕ} (hat : front.length = at_) (hn : mid.length = n) :
    slice (front ++ (mid ++ rest)) at_ n = mid := by
  subst hat hn
  rw [slice_append_right le_rfl, Nat.sub_self, slice_append_left (by omega), slice_all rfl]

/-- An inode number the volume can have. -/
def LegalIno (sb : Superblock) (ino : ℕ) : Prop :=
  ino ≠ 0 ∧ ino ≤ maxInumber ∧ (sb.splitIno ino).1 < sb.agcount

instance (sb : Superblock) (ino : ℕ) : Decidable (LegalIno sb ino) :=
  inferInstanceAs (Decidable (_ ∧ _ ∧ _))

-- what the reader makes of an entry: a volume without the feature keeps no type
def SfEntry.back (hasFtype : Bool) (e : SfEntry) : DirEntry :=
  ⟨e.name, e.ino, if hasFtype then e.ftype else none, e.cookie⟩

section

variable {sb : Superblock} {ino : ℕ}

theorem checkEntryIno_of (h : LegalIno sb n) (what : String) :
    checkEntryIno sb n what = .ok () := by
  simp only [checkEntryIno, bind_eq_ok, ensure_eq_ok, exists_const]
  exact ⟨h.1, h.2.1, h.2.2⟩

variable {wide : Bool}

theorem beValue_beBytes_ino (hlegal : n ≤ maxInumber) (hfits : wide = false → n < 2 ^ 32) :
    beValue (beBytes (inoSize wide) n) = n := by
  refine beValue_beBytes_of_lt ?_
  cases wide with
  | false => exact lt_of_lt_of_eq (hfits rfl) (by decide)
  | true => exact lt_of_le_of_lt hlegal (by decide)

theorem readSfIno_mid {off : ℕ} (hoff : front.length = off) (hlegal : n ≤ maxInumber)
    (hfits : wide = false → n < 2 ^ 32) :
    readSfIno (front ++ (beBytes (inoSize wide) n ++ rest)) off wide = .ok n := by
  have hvalue := beValue_beBytes_ino hlegal hfits
  cases wide with
  | false =>
    have hslice : slice (front ++ (beBytes (inoSize false) n ++ rest)) off 4 =
        beBytes (inoSize false) n := slice_mid hoff (beBytes_length _ _)
    rw [readSfIno, if_neg Bool.false_ne_true, hslice, hvalue]
  | true =>
    have hslice : slice (front ++ (beBytes (inoSize true) n ++ rest)) off 8 =
        beBytes (inoSize true) n := slice_mid hoff (beBytes_length _ _)
    rw [readSfIno, if_pos rfl]
    simp only [hslice, hvalue]
    rw [ensure_of hlegal]
    rfl

theorem typeByte_length (hasFtype : Bool) (t : Option FileType) :
    (typeByte hasFtype t).length = hasFtype.toNat := by
  cases hasFtype <;> simp [typeByte]

theorem readType_mid {hasFtype : Bool} {t : Option FileType} {off : ℕ} (hoff : front.length = off) :
    readType hasFtype (front ++ (typeByte hasFtype t ++ rest)) off =
      .ok (if hasFtype then t else none) := by
  cases hasFtype with
  | false => rfl
  | true =>
    have hslice : slice (front ++ (typeByte true t ++ rest)) off 1 = beBytes 1 (ftypeToRaw t) :=
      slice_mid hoff (beBytes_length _ _)
    have hraw : ftypeToRaw t < 256 ^ 1 := by
      cases t with
      | none => decide
      | some t => cases t <;> decide
    rw [readType, if_pos rfl, hslice, beValue_beBytes_of_lt hraw]
    exact ftypeFromRaw_ftypeToRaw t

theorem encodeEntry_length (hasFtype wide : Bool) (e : SfEntry) :
    (encodeEntry hasFtype wide e).length =
      3 + e.name.length + hasFtype.toNat + inoSize wide := by
  simp only [encodeEntry, List.length_append, beBytes_length, typeByte_length]

/-- An entry that can be told from its bytes. -/
structure SfEntry.Readable (sb : Superblock) (wide : Bool) (e : SfEntry) : Prop where
  named : 0 < e.name.length
  short : e.name.length < 256
  legal : LegalIno sb e.ino
  fits : wide = false → e.ino < 2 ^ 32

theorem readEntries_cons {e : SfEntry} (he : e.Readable sb wide) (hcookie : e.cookie ≤ 0xffff)
    (count i cur : ℕ) (rest : List UInt8) :
    readEntries sb ino wide (count + 1) i cur (encodeEntry sb.hasFtype wide e ++ rest) =
      (readEntries sb ino wide count (i + 1) (cur + (encodeEntry sb.hasFtype wide e).length) rest >>=
        fun r => pure (e.back sb.hasFtype :: r.1, r.2)) := by
  set buf := encodeEntry sb.hasFtype wide e ++ rest with hbuf
  have hlen := encodeEntry_length sb.hasFtype wide e
  have hall : buf = beBytes 1 e.name.length ++ (beBytes 2 e.cookie ++ (e.name ++
      (typeByte sb.hasFtype e.ftype ++ (beBytes (inoSize wide) e.ino ++ rest)))) := by
    simp only [hbuf, encodeEntry, List.append_assoc]
  have hnamelen : beValue (slice buf 0 1) = e.name.length := by
    rw [hall, slice_append_left (by simp), slice_all (beBytes_length _ _)]
    exact beValue_beBytes_of_lt he.short
  have hoffset : beValue (slice buf 1 2) = e.cookie := by
    rw [hall, slice_mid (beBytes_length _ _) (beBytes_length _ _)]
    exact beValue_beBytes_of_lt (Nat.lt_succ_of_le hcookie)
  have hname : slice buf 3 e.name.length = e.name := by
    rw [hall, ← List.append_assoc]
    exact slice_mid (by simp) rfl
  have htype : readType sb.hasFtype buf (3 + e.name.length) =
      .ok (if sb.hasFtype then e.ftype else none) := by
    rw [hall, ← List.append_assoc, ← List.append_assoc]
    exact readType_mid (by simp; omega)
  have hino : readSfIno buf (3 + e.name.length + sb.hasFtype.toNat) wide = .ok e.ino := by
    rw [hall, ← List.append_assoc, ← List.append_assoc, ← List.append_assoc]
    refine readSfIno_mid ?_ he.legal.2.1 he.fits
    simp only [List.length_append, beBytes_length, typeByte_length]
  have hdrop : buf.drop (3 + e.name.length + sb.hasFtype.toNat + inoSize wide) = rest := by
    rw [hbuf, ← hlen, List.drop_left]
  have hfit : 3 + e.name.length + sb.hasFtype.toNat + inoSize wide ≤ buf.length := by
    rw [hbuf, List.length_append, hlen]
    omega
  rw [readEntries, ensure_of (by omega)]
  simp only [hnamelen]
  rw [ensure_of (by have := he.named; omega), ensure_of hfit, htype, hino]
  simp only [hoffset, hname, hdrop, hlen]
  change (checkEntryIno sb e.ino _ >>= fun _ => _) = _
  rw [checkEntryIno_of he.legal]
  rfl

theorem readEntries_encodeEntries {entries : List SfEntry} {body : List UInt8}
    (hread : ∀ e ∈ entries, e.Readable sb wide)
    (h : encodeEntries sb.hasFtype wide entries = .ok body) (i cur : ℕ) :
    readEntries sb ino wide entries.length i cur body =
      .ok (entries.map (SfEntry.back sb.hasFtype), cur + body.length) := by
  induction entries generalizing body i cur with
  | nil =>
    cases h
    rfl
  | cons e entries ih =>
    obtain ⟨_, hcookie, h⟩ := bind_eq_ok.mp h
    obtain ⟨rest, hrest, h⟩ := bind_eq_ok.mp h
    cases h
    rw [List.length_cons, readEntries_cons (hread e List.mem_cons_self) (ensure_eq_ok.mp hcookie),
      ih (fun x hx => hread x (List.mem_cons_of_mem _ hx)) hrest, List.length_append]
    rw [List.map_cons, ← Nat.add_assoc]
    rfl

theorem readShortForm_eq {parent i8count : ℕ} {entries : List SfEntry} {body pad : List UInt8}
    (hcount : entries.length < 256) (hi8 : i8count < 256) (hparent : LegalIno sb parent)
    (hfits : i8count = 0 → parent < 2 ^ 32)
    (hread : ∀ e ∈ entries, e.Readable sb (decide (i8count ≠ 0)))
    (hbody : encodeEntries sb.hasFtype (decide (i8count ≠ 0)) entries = .ok body)
    {fork : List UInt8}
    (hfork : fork = beBytes 1 entries.length ++ beBytes 1 i8count ++
      beBytes (inoSize (decide (i8count ≠ 0))) parent ++ body) :
    readShortForm sb ⟨ino, true, .local_, fork.length⟩ (fork ++ pad) =
      (ensure (wideNumbers maxShortInumRead parent (entries.map SfEntry.ino) = i8count)
        (.badSuperblock s!"inode {ino}: short-form header claims {i8count} inode numbers wider than 32 bits, but {wideNumbers maxShortInumRead parent (entries.map SfEntry.ino)} are") >>=
        fun _ => pure ⟨parent, i8count, entries.map (SfEntry.back sb.hasFtype)⟩) := by
  set wide := decide (i8count ≠ 0) with hwide
  have hall : fork = beBytes 1 entries.length ++ (beBytes 1 i8count ++
      (beBytes (inoSize wide) parent ++ body)) := by
    simp only [hfork, List.append_assoc]
  have hlen : fork.length = 2 + inoSize wide + body.length := by
    rw [hfork]
    simp only [List.length_append, beBytes_length]
  have htake : (fork ++ pad).take fork.length = fork := List.take_left
  have hcount' : beValue (slice fork 0 1) = entries.length := by
    rw [hall, slice_append_left (by simp), slice_all (beBytes_length _ _)]
    exact beValue_beBytes_of_lt hcount
  have hi8' : beValue (slice fork 1 1) = i8count := by
    rw [hall, slice_mid (beBytes_length _ _) (beBytes_length _ _)]
    exact beValue_beBytes_of_lt hi8
  have hino : readSfIno fork 2 wide = .ok parent := by
    rw [hall, ← List.append_assoc]
    refine readSfIno_mid (by simp) hparent.2.1 fun hnarrow => hfits ?_
    simpa [hwide] using hnarrow
  have hdrop : fork.drop (2 + inoSize wide) = body := by
    rw [hfork]
    exact List.drop_left' (by simp only [List.length_append, beBytes_length])
  have hentries := @readEntries_encodeEntries sb ino wide entries body hread hbody 0
    (2 + inoSize wide)
  have hinos : (entries.map (SfEntry.back sb.hasFtype)).map DirEntry.ino = entries.map SfEntry.ino := by
    rw [List.map_map]
    rfl
  rw [readShortForm, ensure_of rfl, ensure_of rfl, ensure_of (by simp)]
  simp only [htake, hcount', hi8']
  rw [ensure_of (by omega), ← hwide, ensure_of (by omega), hino]
  change (checkEntryIno sb parent _ >>= fun _ => _) = _
  rw [checkEntryIno_of hparent]
  simp only [hdrop]
  change (readEntries sb ino wide entries.length 0 (2 + inoSize wide) body >>= fun _ => _) = _
  rw [hentries]
  change (ensure (2 + inoSize wide + body.length = fork.length) _ >>= fun _ => _) = _
  rw [ensure_of hlen.symm]
  simp only [hinos]
  rfl

end

/-! ## The writes -/

/-- What a create, link, rename, removal or mkdir asks to be written. -/
inductive Write where
  | afterRename (from_ to_ : List UInt8) (forkSpace : ℕ)
  | listed (parent : ℕ) (entries : List BlockEntry) (forkSpace : ℕ)
  | withEntry (name : List UInt8) (ino : ℕ) (ftype : Option FileType) (forkSpace : ℕ)
  | withoutEntry (name : List UInt8) (forkSpace : ℕ)
  | made (parent : ℕ)

namespace Write

def fork (sb : Superblock) (parsed : ShortFormDir) : Write → Except Error (Option (List UInt8))
  | .afterRename from_ to_ forkSpace => some <$> shortFormAfterRename sb parsed from_ to_ forkSpace
  | .listed parent entries forkSpace => shortFormOf sb parsed parent entries forkSpace
  | .withEntry name ino ftype forkSpace => shortFormWithEntry sb parsed name ino ftype forkSpace
  | .withoutEntry name forkSpace => some <$> shortFormWithoutEntry sb parsed name forkSpace
  | .made parent => .ok (some (emptyShortFormDir parent))

def parent (parsed : ShortFormDir) : Write → ℕ
  | .listed parent _ _ => parent
  | .made parent => parent
  | _ => parsed.parentIno

def entries (sb : Superblock) (parsed : ShortFormDir) : Write → List SfEntry
  | .afterRename from_ to_ _ =>
    match parsed.entries.find? fun e => e.name = from_ with
    | some moved => renamedEntries parsed sb.hasFtype from_ to_ moved
    | none => []
  | .listed _ entries _ =>
    cookiesFor parsed sb.hasFtype (nextCookie parsed sb.hasFtype) entries
  | .withEntry name ino ftype _ => addedEntries parsed sb.hasFtype name ino ftype
  | .withoutEntry name _ => keptEntries parsed name
  | .made _ => []

def numbers (sb : Superblock) (parsed : ShortFormDir) (w : Write) : List ℕ :=
  w.parent parsed :: (w.entries sb parsed).map SfEntry.ino

/-- No number is one that the writer takes for wide and the reader does not. A directory just made is
written by the reader's bound. -/
def Agreed (sb : Superblock) (parsed : ShortFormDir) : Write → Prop
  | .made _ => True
  | w => ∀ n ∈ w.numbers sb parsed, n ≤ maxShortInum ∨ maxShortInumRead < n

end Write

section

variable {sb : Superblock} {parsed : ShortFormDir} {w : Write} {fork : List UInt8}

theorem fitting_eq_some {forkSpace : ℕ} {whole : List UInt8} (h : fitting forkSpace whole = some fork) :
    whole = fork := by
  unfold fitting at h
  split at h
  · exact Option.some.inj h
  · cases h

theorem map_some_eq_ok {x : Except Error (List UInt8)} (h : some <$> x = .ok (some fork)) :
    x = .ok fork := by
  cases x with
  | error e => exact absurd h (by simp [Functor.map, Except.map])
  | ok a => exact congrArg Except.ok (Option.some.inj (Except.ok.inj h))

theorem Write.fork_cases (h : w.fork sb parsed = .ok (some fork)) :
    (∃ parent, w = .made parent ∧ fork = emptyShortFormDir parent) ∨
      (∀ parent, w ≠ .made parent) ∧ ∃ forkSpace,
        encodeShortForm (w.parent parsed) sb.hasFtype (w.entries sb parsed) forkSpace = .ok fork := by
  cases w with
  | afterRename from_ to_ forkSpace =>
    obtain ⟨moved, hmoved, hencode⟩ := bind_eq_ok.mp (map_some_eq_ok h)
    refine .inr ⟨by simp, forkSpace, ?_⟩
    simp only [Write.entries, orElse_eq_ok.mp hmoved]
    exact hencode
  | listed parent entries forkSpace =>
    obtain ⟨whole, hwhole, hfit⟩ := bind_eq_ok.mp h
    obtain rfl := fitting_eq_some (Except.ok.inj hfit)
    exact .inr ⟨by simp, usizeMax, hwhole⟩
  | withEntry name ino ftype forkSpace =>
    obtain ⟨whole, hwhole, hfit⟩ := bind_eq_ok.mp h
    obtain rfl := fitting_eq_some (Except.ok.inj hfit)
    exact .inr ⟨by simp, usizeMax, hwhole⟩
  | withoutEntry name forkSpace =>
    obtain ⟨_, -, hencode⟩ := bind_eq_ok.mp (map_some_eq_ok h)
    exact .inr ⟨by simp, forkSpace, hencode⟩
  | made parent => exact .inl ⟨parent, rfl, (Option.some.inj (Except.ok.inj h)).symm⟩

theorem wideNumbers_eq_countP (max parent : ℕ) (inos : List ℕ) :
    wideNumbers max parent inos = (parent :: inos).countP fun n => max < n := by
  rw [wideNumbers, List.countP_cons, Nat.add_comm]
  by_cases h : max < parent <;> simp [h]

theorem countP_eq_iff {low high : ℕ} (hle : low ≤ high) (l : List ℕ) :
    (l.countP fun n => high < n) = (l.countP fun n => low < n) ↔ ∀ n ∈ l, n ≤ low ∨ high < n := by
  have hsplit := l.countP_eq_countP_filter_add (fun n => decide (low < n)) (fun n => decide (high < n))
  have hhigh : (l.countP fun n => decide (low < n) && decide (high < n)) = l.countP fun n => high < n :=
    List.countP_congr fun n _ => by simp; omega
  rw [List.countP_filter, List.countP_filter, hhigh] at hsplit
  rw [hsplit, Nat.left_eq_add, List.countP_eq_zero]
  refine forall₂_congr fun n _ => ?_
  simp
  omega

def Write.bound : Write → ℕ
  | .made _ => maxShortInumRead
  | _ => maxShortInum

theorem Write.agreed_iff : w.Agreed sb parsed ↔
    wideNumbers maxShortInumRead (w.parent parsed) ((w.entries sb parsed).map SfEntry.ino) =
      wideNumbers w.bound (w.parent parsed) ((w.entries sb parsed).map SfEntry.ino) := by
  have hmost : (∀ n ∈ w.numbers sb parsed, n ≤ maxShortInum ∨ maxShortInumRead < n) ↔
      wideNumbers maxShortInumRead (w.parent parsed) ((w.entries sb parsed).map SfEntry.ino) =
        wideNumbers maxShortInum (w.parent parsed) ((w.entries sb parsed).map SfEntry.ino) := by
    rw [wideNumbers_eq_countP, wideNumbers_eq_countP]
    exact (countP_eq_iff (by decide) _).symm
  cases w with
  | made parent => exact iff_of_true trivial rfl
  | afterRename _ _ _ => exact hmost
  | listed _ _ _ => exact hmost
  | withEntry _ _ _ _ => exact hmost
  | withoutEntry _ _ => exact hmost

section

variable (hlegal : ∀ n ∈ w.numbers sb parsed, LegalIno sb n)
  (hnames : ∀ e ∈ w.entries sb parsed, 0 < e.name.length ∧ e.name.length < 256)
  (h : w.fork sb parsed = .ok (some fork))

include hlegal hnames h

theorem Write.read_eq {ino : ℕ} {pad : List UInt8} :
    ∃ i8count why, i8count = wideNumbers w.bound (w.parent parsed)
        ((w.entries sb parsed).map SfEntry.ino) ∧
      readShortForm sb ⟨ino, true, .local_, fork.length⟩ (fork ++ pad) =
        (ensure (wideNumbers maxShortInumRead (w.parent parsed)
          ((w.entries sb parsed).map SfEntry.ino) = i8count) why >>= fun _ =>
          pure ⟨w.parent parsed, i8count, (w.entries sb parsed).map (SfEntry.back sb.hasFtype)⟩) := by
  have hparent := hlegal (w.parent parsed) List.mem_cons_self
  have hinos : ∀ e ∈ w.entries sb parsed, LegalIno sb e.ino := fun e he =>
    hlegal e.ino (List.mem_cons_of_mem _ (List.mem_map_of_mem he))
  rcases Write.fork_cases h with ⟨parent, rfl, rfl⟩ | ⟨hother, forkSpace, hencode⟩
  · have hwide : decide ((decide (0xffffffff < parent)).toNat ≠ 0) = decide (0xffffffff < parent) := by
      by_cases hlt : 0xffffffff < parent <;> simp [hlt]
    refine ⟨(decide (0xffffffff < parent)).toNat, _, rfl, @readShortForm_eq sb ino parent
      (decide (0xffffffff < parent)).toNat [] [] pad (by simp) ?_ hparent ?_ (by simp) rfl _ ?_⟩
    · by_cases hlt : 0xffffffff < parent <;> simp [hlt]
    · intro hzero
      by_contra hge
      have hlt : 0xffffffff < parent := by omega
      simp [hlt] at hzero
    · rw [hwide, List.append_nil]
      rfl
  · have hbound : w.bound = maxShortInum := by
      cases w with
      | made parent => exact absurd rfl (hother parent)
      | afterRename _ _ _ => rfl
      | listed _ _ _ => rfl
      | withEntry _ _ _ _ => rfl
      | withoutEntry _ _ => rfl
    rw [hbound]
    set i8count := wideNumbers maxShortInum (w.parent parsed)
      ((w.entries sb parsed).map SfEntry.ino) with hi8
    obtain ⟨_, hle, hencode⟩ := bind_eq_ok.mp hencode
    obtain ⟨_, hcount, hencode⟩ := bind_eq_ok.mp hencode
    obtain ⟨body, hbody, hencode⟩ := bind_eq_ok.mp hencode
    obtain ⟨_, -, hencode⟩ := bind_eq_ok.mp hencode
    have hle : i8count ≤ 255 := ensure_eq_ok.mp hle
    have hcount := ensure_eq_ok.mp hcount
    have hnarrow : i8count = 0 → ∀ n ∈ w.numbers sb parsed, n < 2 ^ 32 := by
      intro hzero n hn
      have hnone : (w.numbers sb parsed).countP (fun n => maxShortInum < n) = 0 := by
        rw [← hzero, hi8, wideNumbers_eq_countP]
        rfl
      have hsmall := List.countP_eq_zero.mp hnone n hn
      rw [decide_eq_true_eq] at hsmall
      exact lt_of_le_of_lt (not_lt.mp hsmall) (by decide)
    refine ⟨i8count, _, rfl, readShortForm_eq (by omega) (by omega) hparent
      (fun hzero => hnarrow hzero _ List.mem_cons_self) (fun e he => ?_) hbody
      (Except.ok.inj hencode).symm⟩
    refine ⟨(hnames e he).1, (hnames e he).2, hinos e he, fun hwide => ?_⟩
    exact hnarrow (by simpa using hwide) _ (List.mem_cons_of_mem _ (List.mem_map_of_mem he))

theorem Write.read_written {ino : ℕ} {pad : List UInt8} {back : ShortFormDir}
    (hread : readShortForm sb ⟨ino, true, .local_, fork.length⟩ (fork ++ pad) = .ok back) :
    back.parentIno = w.parent parsed ∧
      back.entries = (w.entries sb parsed).map (SfEntry.back sb.hasFtype) := by
  obtain ⟨i8count, why, -, hlast⟩ := @Write.read_eq sb parsed w fork hlegal hnames h ino pad
  rw [hlast] at hread
  obtain ⟨_, -, hback⟩ := bind_eq_ok.mp hread
  cases hback
  exact ⟨rfl, rfl⟩

end

/-- The fork that is written reads back as what was meant exactly when the writer and the reader call
the same numbers wide. -/
theorem Write.reads_back_iff {ino : ℕ} {pad : List UInt8}
    (hlegal : ∀ n ∈ w.numbers sb parsed, LegalIno sb n)
    (hnames : ∀ e ∈ w.entries sb parsed, 0 < e.name.length ∧ e.name.length < 256)
    (h : w.fork sb parsed = .ok (some fork)) :
    (∃ back, readShortForm sb ⟨ino, true, .local_, fork.length⟩ (fork ++ pad) = .ok back ∧
      back.parentIno = w.parent parsed ∧
      back.entries = (w.entries sb parsed).map (SfEntry.back sb.hasFtype)) ↔ w.Agreed sb parsed := by
  obtain ⟨i8count, why, hi8, hlast⟩ := @Write.read_eq sb parsed w fork hlegal hnames h ino pad
  rw [Write.agreed_iff, ← hi8]
  constructor
  · rintro ⟨back, hback, -⟩
    rw [hlast] at hback
    obtain ⟨_, hagree, -⟩ := bind_eq_ok.mp hback
    exact ensure_eq_ok.mp hagree
  · intro hagree
    rw [hlast, ensure_of hagree]
    exact ⟨_, rfl, rfl, rfl⟩

end

/-! ## A volume of two terabytes -/

def wideVolume : Superblock where
  blocksize := 4096
  dblocks := 2 ^ 29
  logstart := 64
  rootino := 128
  agblocks := 2 ^ 28
  agcount := 2
  logblocks := 8
  sectsize := 512
  inodesize := 512
  inopblock := 8
  blocklog := 12
  sectlog := 9
  inodelog := 9
  inopblog := 3
  agblklog := 28
  inprogress := 0
  dirblklog := 0
  logsunit := 0
  featuresIncompat := 1

theorem wideVolume_accepted : wideVolume.Accepted := by
  decide

def emptyDirectory : ShortFormDir :=
  ⟨128, 0, []⟩

theorem reads_back_small : ∃ fork,
    (Write.withEntry [97] 131 (some .regular) 336).fork wideVolume emptyDirectory = .ok (some fork) ∧
      ∃ back, readShortForm wideVolume ⟨130, true, .local_, fork.length⟩ (fork ++ []) = .ok back ∧
        back.parentIno = 128 ∧ back.entries = [⟨[97], 131, some .regular, 96⟩] := by
  have hwrite : (Write.withEntry [97] 131 (some .regular) 336).fork wideVolume emptyDirectory =
      .ok (some [1, 0, 0, 0, 0, 128, 1, 0, 96, 97, 1, 0, 0, 0, 131]) := by decide +kernel
  refine ⟨_, hwrite, (Write.reads_back_iff ?_ ?_ hwrite).mpr ?_⟩
  · decide +kernel
  · decide +kernel
  · unfold Write.Agreed
    decide +kernel

/-- The first inode of the second group is written in eight bytes and counted, and the reader does not
count it. -/
theorem second_group_unreadable :
    wideVolume.Accepted ∧ LegalIno wideVolume 128 ∧ LegalIno wideVolume (2 ^ 31) ∧ ∃ fork,
      (Write.withEntry [97] (2 ^ 31) (some .regular) 336).fork wideVolume emptyDirectory =
        .ok (some fork) ∧
      readShortForm wideVolume ⟨130, true, .local_, fork.length⟩ fork = .error (.badSuperblock
        "inode 130: short-form header claims 1 inode numbers wider than 32 bits, but 0 are") := by
  refine ⟨wideVolume_accepted, by decide +kernel, by decide +kernel,
    [1, 1, 0, 0, 0, 0, 0, 0, 0, 128, 1, 0, 96, 97, 1, 0, 0, 0, 0, 128, 0, 0, 0], ?_, ?_⟩
  · decide +kernel
  · decide +kernel

end FsXfs.Names
