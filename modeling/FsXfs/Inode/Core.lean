import FsXfs.Lib.Fields
import FsXfs.Log.Dinode

/-!
# Inode cores

The core of an inode as its bytes, and the edits operations make of it (`create.rs`, `inode.rs`).
The fields of a core are big-endian; `di_flags2` decides how its times and its extent count are
encoded.
-/

namespace FsXfs

open Bytes Log

set_option autoImplicit false

abbrev diMode : ℕ := 2
abbrev diFormat : ℕ := 5
abbrev diUid : ℕ := 8
abbrev diGid : ℕ := 12
abbrev diNlink : ℕ := 16
abbrev diProjidLo : ℕ := 20
abbrev diProjidHi : ℕ := 22
abbrev diBigNextents : ℕ := 24
abbrev diAtime : ℕ := 32
abbrev diMtime : ℕ := 40
abbrev diCtime : ℕ := 48
abbrev diSize : ℕ := 56
abbrev diNblocks : ℕ := 64
abbrev diNextents : ℕ := 76
abbrev diAnextents : ℕ := 80
abbrev diAformat : ℕ := 83
abbrev diFlags : ℕ := 90
abbrev diChangecount : ℕ := 104
abbrev diCrtime : ℕ := 144

inductive Format where
  | dev | local_ | extents | btree | uuid | rmap
  deriving DecidableEq, Repr

def Format.raw : Format → ℕ
  | .dev => 0
  | .local_ => 1
  | .extents => 2
  | .btree => 3
  | .uuid => 4
  | .rmap => 5

/-! ## Fields -/

def beAt (core : List UInt8) (at_ width : ℕ) : ℕ :=
  beValue (slice core at_ width)

def setBe (core : List UInt8) (at_ width v : ℕ) : List UInt8 :=
  patch core at_ (beBytes width v)

def flags2At (core : List UInt8) : ℕ :=
  beAt core diFlags2 8

def setNextents (core : List UInt8) (count : ℕ) : List UInt8 :=
  if (flags2At core).testBit 4 then setBe core diBigNextents 8 count
  else setBe core diNextents 4 count

-- `DI_FLAGS2_BIGTIME | DI_FLAGS2_NREXT64` are bits 3 and 4
def resetFlags (core : List UInt8) : List UInt8 :=
  let core := setBe core diFlags 2 0
  setBe core diFlags2 8 (flags2At core &&& 24)

/-! ## Times -/

structure Timestamp where
  sec : ℤ
  nsec : ℕ
  deriving DecidableEq, Repr

namespace Timestamp

def saturateI64 (n : ℤ) : ℤ :=
  max (-2 ^ 63) (min n (2 ^ 63 - 1))

def bigtimeValue (t : Timestamp) : ℕ :=
  let fromEpoch := saturateI64 (t.sec + 2147483648)
  (saturateI64 (saturateI64 (fromEpoch * 1000000000) + t.nsec)).toNat

def legacySeconds (t : Timestamp) : ℕ :=
  (max (-2 ^ 31) (min t.sec (2 ^ 31 - 1)) % 2 ^ 32).toNat

def parse (buf : List UInt8) (off : ℕ) (bigtime : Bool) : Timestamp :=
  if bigtime then ⟨-2147483648 + (beAt buf off 8 / 1000000000 : ℕ), beAt buf off 8 % 1000000000⟩
  else
    -- the seconds are read as an `i32`
    let sec := beAt buf off 4
    ⟨if sec < 2 ^ 31 then sec else sec - 2 ^ 32, beAt buf (off + 4) 4⟩

def encode (t : Timestamp) (buf : List UInt8) (off : ℕ) (bigtime : Bool) : List UInt8 :=
  if bigtime then setBe buf off 8 t.bigtimeValue
  else setBe (setBe buf off 4 t.legacySeconds) (off + 4) 4 t.nsec

end Timestamp

inductive Changed where
  | status | contents
  deriving DecidableEq, Repr

def usesBigtime (core : List UInt8) : Bool :=
  decide (3 ≤ versionOf core) && (flags2At core).testBit 3

def stampChange (core : List UInt8) (when_ : Timestamp) (changed : Changed) : List UInt8 :=
  let bigtime := usesBigtime core
  let core := when_.encode core diCtime bigtime
  if changed = .contents then when_.encode core diMtime bigtime else core

/-! ## A new inode's core -/

inductive Kind where
  | file | directory | symlink
  deriving DecidableEq, Repr

namespace Kind

def format : Kind → Format
  | .file => .extents
  | .directory => .local_
  | .symlink => .local_

def nlink : Kind → ℕ
  | .file => 1
  | .directory => 2
  | .symlink => 1

def typeBits : Kind → ℕ
  | .file => 0o100000
  | .directory => 0o040000
  | .symlink => 0o120000

def making : Kind → String
  | .file => "a regular file"
  | .directory => "a directory"
  | .symlink => "a symbolic link"

end Kind

def sIfmt : ℕ := 0o170000

def typedMode (mode : ℕ) (kind : Kind) : Except Error ℕ :=
  if mode &&& sIfmt = 0 then .ok (mode ||| kind.typeBits)
  else if mode &&& sIfmt = kind.typeBits then .ok mode
  else .error (.unsupportedFeature s!"mode {mode} has type bits {mode &&& sIfmt}, and creating {kind.making} makes type {kind.typeBits}; pass the permissions alone, or with the matching type")

def createdCore (raw : List UInt8) (mode : ℕ) (kind : Kind) (size : ℕ) (when_ : Timestamp) :
    List UInt8 :=
  let core := setBe raw diMode 2 mode
  let core := setBe core diFormat 1 kind.format.raw
  let core := setBe core diNlink 4 kind.nlink
  let core := setBe core diSize 8 size
  -- both counters wrap, as their width makes them
  let core := setBe core diGen 4 (beAt core diGen 4 + 1)
  let core := setBe core diChangecount 8 (beAt core diChangecount 8 + 1)
  let core := setBe core diAformat 1 Format.extents.raw
  let core := setBe core diForkoff 1 0
  let core := setBe core diAnextents 2 0
  let core := resetFlags core
  let bigtime := (flags2At core).testBit 3
  let core := when_.encode core diAtime bigtime
  let core := when_.encode core diMtime bigtime
  let core := when_.encode core diCtime bigtime
  if 3 ≤ versionOf core then when_.encode core diCrtime bigtime else core

/-! ## What an edit of the core leaves alone -/

def Editable (at_ width : ℕ) : Prop :=
  at_ + width ≤ xfsDinodeV3Size ∧ (at_ + width ≤ diVersion ∨ diVersion < at_) ∧
    (at_ + width ≤ diNextUnlinked ∨ diNextUnlinked + 4 ≤ at_)

instance (at_ width : ℕ) : Decidable (Editable at_ width) :=
  inferInstanceAs (Decidable (_ ∧ _ ∧ _))

structure CoreEdit (a b : List UInt8) : Prop where
  length_eq : b.length = a.length
  version_eq : b[diVersion]? = a[diVersion]?
  unlinked_eq : ∀ k, diNextUnlinked ≤ k → k < diNextUnlinked + 4 → b[k]? = a[k]?
  tail_eq : ∀ k, xfsDinodeV3Size ≤ k → b[k]? = a[k]?

namespace CoreEdit

theorem refl (a : List UInt8) : CoreEdit a a :=
  ⟨rfl, rfl, fun _ _ _ => rfl, fun _ _ => rfl⟩

theorem trans {a b c : List UInt8} (h : CoreEdit a b) (h' : CoreEdit b c) : CoreEdit a c where
  length_eq := h'.length_eq.trans h.length_eq
  version_eq := h'.version_eq.trans h.version_eq
  unlinked_eq k hlo hhi := (h'.unlinked_eq k hlo hhi).trans (h.unlinked_eq k hlo hhi)
  tail_eq k hk := (h'.tail_eq k hk).trans (h.tail_eq k hk)

theorem of_patch {core new : List UInt8} {at_ : ℕ} (hlen : xfsDinodeV3Size ≤ core.length)
    (h : Editable at_ new.length) : CoreEdit core (patch core at_ new) := by
  obtain ⟨hin, hversion, hunlinked⟩ := h
  have hfit : at_ + new.length ≤ core.length := le_trans hin hlen
  have hout : ∀ k, ¬(at_ ≤ k ∧ k < at_ + new.length) → (patch core at_ new)[k]? = core[k]? :=
    fun k hk => by rw [getElem?_patch hfit, if_neg hk]
  refine ⟨patch_length hfit, hout _ (by omega), fun k hlo hhi => hout k (by omega),
    fun k hk => hout k (by omega)⟩

section

variable {core edited : List UInt8}

section

variable (h : CoreEdit core edited) (hlen : xfsDinodeV3Size ≤ core.length)

include h hlen

theorem long :
    xfsDinodeV3Size ≤ edited.length :=
  le_of_le_of_eq hlen h.length_eq.symm

theorem setBe {at_ width : ℕ} (v : ℕ) (hedit : Editable at_ width) :
    CoreEdit core (FsXfs.setBe edited at_ width v) :=
  h.trans (of_patch (h.long hlen) (by rwa [beBytes_length]))

theorem encode (t : Timestamp) {off : ℕ} (bigtime : Bool) (hbig : Editable off 8)
    (hsec : Editable off 4) (hnsec : Editable (off + 4) 4) :
    CoreEdit core (t.encode edited off bigtime) := by
  unfold Timestamp.encode
  split
  · exact h.setBe hlen _ hbig
  · exact (h.setBe hlen _ hsec).setBe hlen _ hnsec

theorem setNextents (count : ℕ) :
    CoreEdit core (FsXfs.setNextents edited count) := by
  unfold FsXfs.setNextents
  split
  · exact h.setBe hlen _ (by decide)
  · exact h.setBe hlen _ (by decide)

theorem resetFlags :
    CoreEdit core (FsXfs.resetFlags edited) :=
  (h.setBe hlen _ (by decide)).setBe hlen _ (by decide)

end

end

end CoreEdit

theorem createdCore_edit {raw : List UInt8} (hlen : xfsDinodeV3Size ≤ raw.length) (mode : ℕ)
    (kind : Kind) (size : ℕ) (when_ : Timestamp) :
    CoreEdit raw (createdCore raw mode kind size when_) := by
  have htimes : ∀ core, CoreEdit raw core → ∀ off bigtime, Editable off 8 → Editable off 4 →
      Editable (off + 4) 4 → CoreEdit raw (when_.encode core off bigtime) :=
    fun core h off bigtime hbig hsec hnsec => h.encode hlen when_ bigtime hbig hsec hnsec
  have hfield : ∀ core, CoreEdit raw core → ∀ at_ width v, Editable at_ width →
      CoreEdit raw (setBe core at_ width v) :=
    fun core h at_ width v hedit => h.setBe hlen v hedit
  have hall : ∀ core bigtime, CoreEdit raw core → CoreEdit raw
      (if 3 ≤ versionOf core then when_.encode core diCrtime bigtime else core) := by
    intro core bigtime h
    split
    · exact htimes _ h _ _ (by decide) (by decide) (by decide)
    · exact h
  refine hall _ _ (htimes _ (htimes _ (htimes _ ?_ _ _ ?_ ?_ ?_) _ _ ?_ ?_ ?_) _ _ ?_ ?_ ?_)
  · refine CoreEdit.resetFlags ?_ hlen
    refine hfield _ (hfield _ (hfield _ (hfield _ (hfield _ (hfield _ (hfield _ (hfield _ (hfield _
      (CoreEdit.refl raw) _ _ _ ?_) _ _ _ ?_) _ _ _ ?_) _ _ _ ?_) _ _ _ ?_) _ _ _ ?_) _ _ _ ?_)
      _ _ _ ?_) _ _ _ ?_
    all_goals decide
  all_goals decide

/-! ## Times that read back -/

section

variable {buf : List UInt8} {off width v : ℕ}

theorem beAt_lt (buf : List UInt8) (at_ n : ℕ) : beAt buf at_ n < 256 ^ n :=
  beValue_slice_lt buf at_ n

section

variable (hin : off + width ≤ buf.length)

include hin

theorem setBe_length : (setBe buf off width v).length = buf.length :=
  patch_length (by rwa [beBytes_length])

theorem beAt_setBe (hv : v < 256 ^ width) : beAt (setBe buf off width v) off width = v := by
  have hself := @slice_patch_self buf (beBytes width v) off (by rwa [beBytes_length])
  rw [beBytes_length] at hself
  rw [beAt, setBe, hself, beValue_beBytes_of_lt hv]

theorem setBe_beAt : setBe buf off width (beAt buf off width) = buf := by
  have hlen := slice_length hin
  rw [setBe, beAt, beBytes_beValue hlen]
  refine List.ext_getElem? fun k => ?_
  rw [getElem?_patch (by rwa [hlen]), hlen, getElem?_slice]
  split
  · next hk => rw [if_pos (by omega), Nat.add_sub_cancel' hk.1]
  · rfl

end

namespace Timestamp

/-- Nanoseconds from 1970. -/
def instant (t : Timestamp) : ℤ :=
  t.sec * 1000000000 + t.nsec

/-- The representable instant closest to a time's own. -/
def nearest (t : Timestamp) (bigtime : Bool) : ℤ :=
  let low := -2 ^ 31 * 1000000000
  max low (min t.instant (low + if bigtime then 2 ^ 64 - 1 else 2 ^ 32 * 1000000000 - 1))

/-- Where the nearest instant is the one stored: the nanoseconds are counted in an `i64`, and the
legacy form clamps the seconds alone. -/
def Reached (t : Timestamp) (bigtime : Bool) : Prop :=
  if bigtime then t.instant + 2 ^ 31 * 1000000000 < 2 ^ 63
  else (-2 ^ 31 ≤ t.sec ∧ t.sec < 2 ^ 31) ∨ (t.sec < 0 ∧ t.nsec = 0) ∨
    0 < t.sec ∧ t.nsec = 999999999

/-- An `i64` of seconds, and nanoseconds within the second. -/
structure Valid (t : Timestamp) : Prop where
  low : -2 ^ 63 ≤ t.sec
  high : t.sec < 2 ^ 63
  nsec : t.nsec < 1000000000

variable {t : Timestamp} {bigtime : Bool}

theorem bigtimeValue_eq (ht : t.Valid) :
    (t.bigtimeValue : ℤ) = max 0 (min (t.instant + 2 ^ 31 * 1000000000) (2 ^ 63 - 1)) := by
  obtain ⟨hlow, hhigh, hnsec⟩ := ht
  simp only [bigtimeValue, saturateI64, instant]
  omega

theorem encode_length (hin : off + 8 ≤ buf.length) :
    (t.encode buf off bigtime).length = buf.length := by
  unfold encode
  split
  · exact setBe_length hin
  · rw [setBe_length (by rw [setBe_length (by omega)]; omega), setBe_length (by omega)]

theorem getElem?_encode (hin : off + 8 ≤ buf.length) {k : ℕ} (hk : k < off ∨ off + 8 ≤ k) :
    (t.encode buf off bigtime)[k]? = buf[k]? := by
  have hset : ∀ {b : List UInt8} {at_ w v : ℕ}, at_ + w ≤ b.length → k < at_ ∨ at_ + w ≤ k →
      (setBe b at_ w v)[k]? = b[k]? := fun hin hk =>
    getElem?_patch_of_outside (by rwa [beBytes_length]) (by rwa [beBytes_length])
  unfold encode
  split
  · exact hset hin hk
  · rw [hset (by rw [setBe_length (by omega)]; omega) (by omega), hset (by omega) (by omega)]

theorem encode_parse_iff (hin : off + 8 ≤ buf.length) :
    (parse buf off bigtime).encode buf off bigtime = buf ↔
      (bigtime = true → beAt buf off 8 < 2 ^ 63) := by
  cases bigtime with
  | false =>
    refine iff_of_true ?_ (by simp)
    have hsec : (parse buf off false).legacySeconds = beAt buf off 4 := by
      have hlt := beAt_lt buf off 4
      simp only [parse, legacySeconds, Bool.false_eq_true, if_false]
      split <;> omega
    rw [encode, if_neg Bool.false_ne_true, hsec, setBe_beAt (by omega)]
    exact setBe_beAt (by omega)
  | true =>
    have hlt := beAt_lt buf off 8
    have hvalue : (parse buf off true).bigtimeValue = min (beAt buf off 8) (2 ^ 63 - 1) := by
      have hsec : (parse buf off true).sec = -2147483648 + (beAt buf off 8 / 1000000000 : ℕ) := rfl
      have hnsec : (parse buf off true).nsec = beAt buf off 8 % 1000000000 := rfl
      have hvalid : (parse buf off true).Valid := ⟨by omega, by omega, by omega⟩
      have hclamped := bigtimeValue_eq hvalid
      rw [instant, hsec, hnsec] at hclamped
      omega
    rw [encode, if_pos rfl, hvalue]
    constructor
    · intro heq _
      have hback := beAt_setBe hin (show min (beAt buf off 8) (2 ^ 63 - 1) < 256 ^ 8 by omega)
      rw [heq] at hback
      omega
    · intro hsmall
      rw [Nat.min_eq_left (Nat.le_sub_one_of_lt (hsmall rfl))]
      exact setBe_beAt hin

theorem parse_encode_iff (ht : t.Valid) (hin : off + 8 ≤ buf.length) :
    (parse (t.encode buf off bigtime) off bigtime).instant = t.nearest bigtime ↔
      t.Reached bigtime := by
  cases bigtime with
  | true =>
    have hvalue := bigtimeValue_eq ht
    have hback : beAt (t.encode buf off true) off 8 = t.bigtimeValue :=
      beAt_setBe hin (by omega)
    simp only [parse, if_true, hback, nearest, Reached]
    simp only [instant] at hvalue ⊢
    omega
  | false =>
    obtain ⟨hlow, hhigh, hnsec⟩ := ht
    have hfit : off + 4 + 4 ≤ (setBe buf off 4 t.legacySeconds).length := by
      rw [setBe_length (by omega)]
      omega
    have hsec : beAt (t.encode buf off false) off 4 = t.legacySeconds := by
      refine (congrArg beValue (slice_patch_of_outside ?_ (.inl (le_refl _)))).trans ?_
      · rwa [beBytes_length]
      · exact beAt_setBe (by omega) (by simp only [legacySeconds]; omega)
    have hnano : beAt (t.encode buf off false) (off + 4) 4 = t.nsec :=
      beAt_setBe hfit (by omega)
    simp only [parse, Bool.false_eq_true, if_false, hsec, hnano, nearest, Reached]
    simp only [instant, legacySeconds]
    split_ifs <;> omega

/-- A stored time is rewritten as it was, and any time is stored as the nearest representable one,
exactly where the count fits an `i64` (and a time past the legacy range has that end's nanoseconds);
stamping a core stores the one time so and leaves every other byte. -/
theorem stored_times_iff {core : List UInt8} (hin : off + 8 ≤ buf.length) (ht : t.Valid)
    (hcore : diCtime + 8 ≤ core.length) (changed : Changed) :
    ((parse buf off bigtime).encode buf off bigtime = buf ↔
        (bigtime = true → beAt buf off 8 < 2 ^ 63)) ∧
      ((parse (t.encode buf off bigtime) off bigtime).instant = t.nearest bigtime ↔
        t.Reached bigtime) ∧
      (∀ at_, at_ = diCtime ∨ at_ = diMtime ∧ changed = .contents →
        ((parse (stampChange core t changed) at_ (usesBigtime core)).instant =
          t.nearest (usesBigtime core) ↔ t.Reached (usesBigtime core))) ∧
      ∀ k, ¬(diCtime ≤ k ∧ k < diCtime + 8) →
        ¬(changed = .contents ∧ diMtime ≤ k ∧ k < diMtime + 8) →
        (stampChange core t changed)[k]? = core[k]? := by
  have hlen : diMtime + 8 ≤ (t.encode core diCtime (usesBigtime core)).length := by
    rw [encode_length hcore]
    exact Nat.le_of_add_right_le (k := 8) hcore
  refine ⟨encode_parse_iff hin, parse_encode_iff ht hin, ?_, fun k hout hout' => ?_⟩
  · rintro at_ (rfl | ⟨rfl, rfl⟩)
    · cases changed with
      | status => exact parse_encode_iff ht hcore
      | contents =>
        have hslice : ∀ a n, diCtime ≤ a → slice (stampChange core t .contents) a n =
            slice (t.encode core diCtime (usesBigtime core)) a n := by
          intro a n ha
          refine List.ext_getElem? fun k => ?_
          rw [getElem?_slice, getElem?_slice]
          split
          · exact getElem?_encode hlen (.inr (le_trans ha (Nat.le_add_right a k)))
          · rfl
        have hparse : parse (stampChange core t .contents) diCtime (usesBigtime core) =
            parse (t.encode core diCtime (usesBigtime core)) diCtime (usesBigtime core) := by
          simp only [parse, beAt, hslice _ _ (le_refl _), hslice _ _ (Nat.le_add_right _ _)]
          rfl
        rw [hparse]
        exact parse_encode_iff ht hcore
    · exact parse_encode_iff ht hlen
  · cases changed with
    | status => exact getElem?_encode hcore (by omega)
    | contents =>
      refine (getElem?_encode hlen ?_).trans (getElem?_encode hcore ?_)
      · have := not_and.mp hout' rfl
        omega
      · omega

/-- A count an `i64` holds is rewritten as it was, and a stamp leaves the access time. -/
theorem stored_times_kept :
    (parse (beBytes 8 (2 ^ 62)) 0 true).encode (beBytes 8 (2 ^ 62)) 0 true = beBytes 8 (2 ^ 62) ∧
      (stampChange (List.replicate 176 0) ⟨1, 1⟩ .contents)[diAtime]? = some 0 := by
  have hlen : (List.replicate 176 (0 : UInt8)).length = 176 := List.length_replicate
  obtain ⟨hsame, -, -, hrest⟩ := @stored_times_iff (beBytes 8 (2 ^ 62)) 0 ⟨1, 1⟩ true
    (List.replicate 176 0) (by decide) ⟨by decide, by decide, by decide⟩ (by rw [hlen]; decide)
    .contents
  refine ⟨hsame.mpr fun _ => by decide +kernel, (hrest diAtime (by decide) (by decide)).trans ?_⟩
  decide

/-- The largest count comes back as the largest `i64`, and so does any later time. -/
theorem largest_count_shortened :
    (parse (beBytes 8 (2 ^ 64 - 1)) 0 true).encode (beBytes 8 (2 ^ 64 - 1)) 0 true =
        beBytes 8 (2 ^ 63 - 1) ∧ beBytes 8 (2 ^ 63 - 1) ≠ beBytes 8 (2 ^ 64 - 1) ∧
      (⟨2 ^ 62, 0⟩ : Timestamp).encode (beBytes 8 0) 0 true = beBytes 8 (2 ^ 63 - 1) := by
  decide +kernel

end Timestamp

end

end FsXfs
