import FsXfs.Basic

/-!
# Inode cores in the log

`log_write.rs`: the log holds an inode's core field by field as the disk does, in the machine's byte
order where the disk's is big-endian, with the checksum blank. A block-map root is logged as a block
of its own and stored in the inode in a shorter form (`bmbt_write.rs`, `bmbt.rs`).
-/

namespace FsXfs.Log

open Bytes

set_option autoImplicit false

abbrev v2LogDinodeSize : ℕ := 96
abbrev logDinodeSize : ℕ := 176
abbrev xfsDinodeV2Size : ℕ := 100
abbrev xfsDinodeV3Size : ℕ := 176

abbrev diVersion : ℕ := 4
abbrev diForkoff : ℕ := 82
abbrev diGen : ℕ := 92
abbrev diNextUnlinked : ℕ := 96
abbrev diCrc : ℕ := 100
abbrev diFlags2 : ℕ := 120
abbrev diIno : ℕ := 152
abbrev diUuid : ℕ := 160

/-! ## Fields and their widths -/

-- `COMMON`: the core up to offset 96, which is all a version-2 inode has
def commonFields : List (ℕ × ℕ) :=
  [(0, 2), (2, 2), (6, 2), (8, 4), (12, 4), (16, 4), (20, 2), (22, 2), (56, 8), (64, 8), (72, 4),
    (84, 4), (88, 2), (90, 2), (92, 4)]

-- `V3_TAIL`
def v3Fields : List (ℕ × ℕ) :=
  [(96, 4), (104, 8), (112, 8), (120, 8), (128, 4), (152, 8)]

def timeFields (bigtime : Bool) : List (ℕ × ℕ) :=
  if bigtime then [(32, 8), (40, 8), (48, 8), (144, 8)]
  else [(32, 4), (36, 4), (40, 4), (44, 4), (48, 4), (52, 4), (144, 4), (148, 4)]

def countFields (nrext64 : Bool) : List (ℕ × ℕ) :=
  if nrext64 then [(24, 8), (76, 4)] else [(76, 4), (80, 2)]

def fieldLayout (version : ℕ) (bigtime nrext64 : Bool) : List (ℕ × ℕ) :=
  if 3 ≤ version then commonFields ++ (v3Fields ++ timeFields bigtime ++ countFields nrext64)
  else commonFields ++
    [(32, 4), (36, 4), (40, 4), (44, 4), (48, 4), (52, 4), (76, 4), (80, 2)]

def reverseField (buf : List UInt8) (field : ℕ × ℕ) : List UInt8 :=
  patch buf field.1 (slice buf field.1 field.2).reverse

def reverseFields (size : ℕ) (fields : List (ℕ × ℕ)) (buf : List UInt8) : List UInt8 :=
  fields.foldl (fun buf field => if size < field.1 + field.2 then buf else reverseField buf field) buf

/-! ## Conversion -/

def coreSize (version : ℕ) : Option ℕ :=
  match version with
  | 1 | 2 => some v2LogDinodeSize
  | 3 => some logDinodeSize
  | _ => none

def versionOf (buf : List UInt8) : ℕ :=
  (buf.getD diVersion 0).toNat

-- `DI_FLAGS2_BIGTIME` and `DI_FLAGS2_NREXT64`
def layoutOf (version flags2 : ℕ) : List (ℕ × ℕ) :=
  fieldLayout version (flags2.testBit 3) (flags2.testBit 4)

def logDinodeFromDisk (raw : List UInt8) : Except String (List UInt8) :=
  if raw.length < v2LogDinodeSize then .error "inode is shorter than a v2 core"
  else
    match coreSize (versionOf raw) with
    | none => .error "unrecognised inode version"
    | some size =>
      if raw.length < size then .error "inode is shorter than its version's core"
      else
        let flags2 := if 3 ≤ versionOf raw then beValue (slice raw diFlags2 8) else 0
        let out := reverseFields size (layoutOf (versionOf raw) flags2) (raw.take size)
        .ok (if 3 ≤ versionOf raw then patch out diCrc [0, 0, 0, 0] else out)

def logDinodeToDisk (logged : List UInt8) : Except String (List UInt8) :=
  if logged.length < v2LogDinodeSize then .error "logged core is shorter than a v2 core"
  else
    match coreSize (versionOf logged) with
    | none => .error "unrecognised inode version"
    | some size =>
      if logged.length < size then .error "logged core is shorter than its version's core"
      else
        -- the flags are still in the machine's order here
        let flags2 := if 3 ≤ versionOf logged then leValue (slice logged diFlags2 8) else 0
        .ok (reverseFields size (layoutOf (versionOf logged) flags2) (logged.take size))

/-! ## A core logged and read back -/

def inField (field : ℕ × ℕ) (k : ℕ) : Prop :=
  field.1 ≤ k ∧ k < field.1 + field.2

instance (field : ℕ × ℕ) (k : ℕ) : Decidable (inField field k) :=
  inferInstanceAs (Decidable (_ ∧ _))

def Apart (f g : ℕ × ℕ) : Prop :=
  f.1 + f.2 ≤ g.1 ∨ g.1 + g.2 ≤ f.1

instance (f g : ℕ × ℕ) : Decidable (Apart f g) :=
  inferInstanceAs (Decidable (_ ∨ _))

def mirror : List (ℕ × ℕ) → ℕ → ℕ
  | [], k => k
  | field :: fields, k =>
    if inField field k then field.1 + (field.2 - 1 - (k - field.1)) else mirror fields k

variable {field : ℕ × ℕ} {k size version : ℕ} {fields : List (ℕ × ℕ)}

theorem inField_flip (h : inField field k) :
    inField field (field.1 + (field.2 - 1 - (k - field.1))) := by
  obtain ⟨hlo, hhi⟩ := h
  constructor <;> omega

theorem not_inField_of_apart {f g : ℕ × ℕ} (h : Apart f g) (hk : inField g k) : ¬inField f k := by
  rintro ⟨hlo, hhi⟩
  obtain ⟨hlo', hhi'⟩ := hk
  rcases h with h | h <;> omega

theorem mirror_of_not_mem (h : ∀ f ∈ fields, ¬inField f k) : mirror fields k = k := by
  induction fields with
  | nil => rfl
  | cons f fields ih =>
    rw [mirror, if_neg (h f List.mem_cons_self)]
    exact ih fun g hg => h g (List.mem_cons_of_mem _ hg)

theorem mirror_cases (fields : List (ℕ × ℕ)) (k : ℕ) :
    (mirror fields k = k ∧ ∀ f ∈ fields, ¬inField f k) ∨
      ∃ f ∈ fields, inField f k ∧ inField f (mirror fields k) := by
  induction fields with
  | nil => exact .inl ⟨rfl, fun f hf => absurd hf (by simp)⟩
  | cons f fields ih =>
    by_cases hk : inField f k
    · refine .inr ⟨f, List.mem_cons_self, hk, ?_⟩
      rw [mirror, if_pos hk]
      exact inField_flip hk
    · rw [mirror, if_neg hk]
      rcases ih with ⟨heq, hnone⟩ | ⟨g, hg, hin⟩
      · refine .inl ⟨heq, fun g hg => ?_⟩
        rcases List.mem_cons.mp hg with rfl | hg
        · exact hk
        · exact hnone g hg
      · exact .inr ⟨g, List.mem_cons_of_mem _ hg, hin⟩

theorem mirror_not_inField {f : ℕ × ℕ}
    (hdisj : ∀ g ∈ fields, Apart f g) (hk : ¬inField f k) : ¬inField f (mirror fields k) := by
  rcases mirror_cases fields k with ⟨heq, -⟩ | ⟨g, hg, -, hin⟩
  · rwa [heq]
  · exact not_inField_of_apart (hdisj g hg) hin

theorem mirror_mirror (h : fields.Pairwise Apart) (k : ℕ) :
    mirror fields (mirror fields k) = k := by
  induction fields with
  | nil => rfl
  | cons f fields ih =>
    obtain ⟨hdisj, hrest⟩ := List.pairwise_cons.mp h
    by_cases hk : inField f k
    · rw [mirror, mirror, if_pos hk, if_pos (inField_flip hk)]
      obtain ⟨hlo, hhi⟩ := hk
      omega
    · rw [mirror, mirror, if_neg hk, if_neg (mirror_not_inField hdisj hk), ih hrest]

variable {buf : List UInt8}

theorem length_reverseField (h : field.1 + field.2 ≤ buf.length) :
    (reverseField buf field).length = buf.length := by
  have hslice := slice_length h
  rw [reverseField, patch_length (by rw [List.length_reverse, hslice]; exact h)]

theorem getElem?_reverseField (h : field.1 + field.2 ≤ buf.length) (k : ℕ) :
    (reverseField buf field)[k]? =
      if inField field k then buf[field.1 + (field.2 - 1 - (k - field.1))]? else buf[k]? := by
  have hslice := slice_length h
  rw [reverseField, getElem?_patch (by rw [List.length_reverse, hslice]; exact h),
    List.length_reverse, hslice]
  by_cases hk : inField field k
  · obtain ⟨hlo, hhi⟩ := hk
    rw [if_pos ⟨hlo, hhi⟩, if_pos ⟨hlo, hhi⟩, List.getElem?_reverse (by rw [hslice]; omega), hslice,
      getElem?_slice, if_pos (by omega)]
  · rw [if_neg hk]
    exact if_neg hk

section

variable {size : ℕ} {fields : List (ℕ × ℕ)} {buf : List UInt8}

theorem length_reverseFields (hfit : ∀ f ∈ fields, f.1 + f.2 ≤ buf.length) :
    (reverseFields size fields buf).length = buf.length := by
  induction fields generalizing buf with
  | nil => rfl
  | cons f fields ih =>
    have hf := hfit f List.mem_cons_self
    have hrest : ∀ g ∈ fields, g.1 + g.2 ≤ buf.length :=
      fun g hg => hfit g (List.mem_cons_of_mem _ hg)
    rw [reverseFields, List.foldl_cons]
    split
    · exact ih hrest
    · rw [← length_reverseField hf] at hrest
      exact (ih hrest).trans (length_reverseField hf)

theorem getElem?_reverseFields (hdisj : fields.Pairwise Apart) (hsize : size ≤ buf.length)
    (hfit : ∀ f ∈ fields, f.1 + f.2 ≤ size) (k : ℕ) :
    (reverseFields size fields buf)[k]? = buf[mirror fields k]? := by
  induction fields generalizing buf with
  | nil => rfl
  | cons f fields ih =>
    obtain ⟨hapart, hdisj⟩ := List.pairwise_cons.mp hdisj
    have hf := hfit f List.mem_cons_self
    have hlen := length_reverseField (le_trans hf hsize)
    rw [reverseFields, List.foldl_cons, if_neg (Nat.not_lt.mpr hf)]
    refine (ih hdisj (by rwa [hlen]) fun g hg => hfit g (List.mem_cons_of_mem _ hg)).trans ?_
    rw [getElem?_reverseField (le_trans hf hsize), mirror]
    by_cases hk : inField f k
    · have hnone : mirror fields k = k :=
        mirror_of_not_mem fun g hg hin => not_inField_of_apart (hapart g hg) hin hk
      rw [hnone, if_pos hk, if_pos hk]
    · rw [if_neg (mirror_not_inField hapart hk), if_neg hk]

end

theorem layoutOf_apart (version flags2 : ℕ) : (layoutOf version flags2).Pairwise Apart := by
  unfold layoutOf fieldLayout
  split
  · cases flags2.testBit 3 <;> cases flags2.testBit 4 <;> decide
  · decide

theorem layoutOf_skips (version flags2 : ℕ)
    (hk : k = diVersion ∨ diCrc ≤ k ∧ k < diCrc + 4) : mirror (layoutOf version flags2) k = k := by
  have hbytes : ∀ k ∈ [4, 100, 101, 102, 103], ∀ f ∈ layoutOf version flags2, ¬inField f k := by
    unfold layoutOf fieldLayout
    split
    · cases flags2.testBit 3 <;> cases flags2.testBit 4 <;> decide
    · decide
  refine mirror_of_not_mem (hbytes k ?_)
  rcases hk with rfl | ⟨hlo, hhi⟩
  · exact List.mem_cons_self
  · simp only [List.mem_cons, List.not_mem_nil, or_false, diCrc] at *
    omega

theorem mirror_flags2 (bigtime nrext64 : Bool) {i : ℕ} (hi : i < 8) :
    mirror (fieldLayout 3 bigtime nrext64) (diFlags2 + i) = diFlags2 + (7 - i) := by
  have hall : ∀ i < 8, mirror (fieldLayout 3 bigtime nrext64) (diFlags2 + i) =
      diFlags2 + (7 - i) := by
    cases bigtime <;> cases nrext64 <;> decide
  exact hall i hi

theorem coreSize_cases (h : coreSize version = some size) :
    (version < 3 ∧ size = v2LogDinodeSize) ∨ version = 3 ∧ size = logDinodeSize := by
  unfold coreSize at h
  split at h
  · exact .inl ⟨by decide, (Option.some.inj h).symm⟩
  · exact .inl ⟨by decide, (Option.some.inj h).symm⟩
  · exact .inr ⟨rfl, (Option.some.inj h).symm⟩
  · cases h

theorem layoutOf_fits (h : coreSize version = some size) (flags2 : ℕ) :
    ∀ f ∈ layoutOf version flags2, f.1 + f.2 ≤ size := by
  unfold layoutOf
  rcases coreSize_cases h with ⟨hv, rfl⟩ | ⟨rfl, rfl⟩
  · rw [fieldLayout, if_neg (Nat.not_le.mpr hv)]
    decide
  · cases flags2.testBit 3 <;> cases flags2.testBit 4 <;> decide

/-- The spans `field_layout` is meant to leave out: the one-byte fields, the checksum, the UUID and the
padding. It leaves out `di_flushiter` of a version-1 or 2 core too, which is no padding. -/
def unswapped (version : ℕ) (nrext64 : Bool) : List (ℕ × ℕ) :=
  [(4, 2), (82, 2)] ++
    if 3 ≤ version then
      (if nrext64 then [(80, 2)] else [(24, 8)]) ++ [(diCrc, 4), (132, 12), (diUuid, 16)]
    else [(24, 6)]

abbrev diFlushiter : ℕ := 30

/-- A core as the log leaves it: cut to its version's size, with the checksum of a version-3 one
blank. -/
def blankedCore (raw : List UInt8) (size : ℕ) : List UInt8 :=
  if 3 ≤ versionOf raw then patch (raw.take size) diCrc [0, 0, 0, 0] else raw.take size

theorem versionOf_eq {a b : List UInt8} (h : a[diVersion]? = b[diVersion]?) :
    versionOf a = versionOf b := by
  rw [versionOf, versionOf, List.getD_eq_getElem?_getD, List.getD_eq_getElem?_getD, h]

def flags2Of (raw : List UInt8) : ℕ :=
  if 3 ≤ versionOf raw then beValue (slice raw diFlags2 8) else 0

section

variable {raw logged : List UInt8} {size : ℕ}

theorem blankedCore_length (hsize : coreSize (versionOf raw) = some size)
    (hlen : size ≤ raw.length) : (blankedCore raw size).length = size := by
  unfold blankedCore
  rcases coreSize_cases hsize with ⟨hv, -⟩ | ⟨hv, rfl⟩
  · rw [if_neg (by omega), List.length_take, Nat.min_eq_left hlen]
  · rw [if_pos (by omega), patch_length, List.length_take, Nat.min_eq_left hlen]
    rw [List.length_take, Nat.min_eq_left hlen]
    decide

theorem getElem?_patch_zeros {at_ : ℕ} (h : at_ + 4 ≤ buf.length) (k : ℕ) :
    (patch buf at_ [0, 0, 0, 0])[k]? = if at_ ≤ k ∧ k < at_ + 4 then some 0 else buf[k]? := by
  have hzero : ∀ i < 4, [(0 : UInt8), 0, 0, 0][i]? = some 0 := by decide
  refine (getElem?_patch h k).trans ?_
  by_cases hk : at_ ≤ k ∧ k < at_ + 4
  · rw [if_pos hk]
    exact (if_pos hk).trans (hzero _ (by omega))
  · rw [if_neg hk]
    exact if_neg hk

theorem getElem?_blankedCore (hsize : coreSize (versionOf raw) = some size)
    (hlen : size ≤ raw.length) (k : ℕ) :
    (blankedCore raw size)[k]? =
      if 3 ≤ versionOf raw ∧ diCrc ≤ k ∧ k < diCrc + 4 then some 0 else (raw.take size)[k]? := by
  unfold blankedCore
  rcases coreSize_cases hsize with ⟨hv, -⟩ | ⟨hv, rfl⟩
  · rw [if_neg (by omega), if_neg (by omega)]
  · have hcrc : diCrc + 4 ≤ (raw.take logDinodeSize).length := by
      rw [List.length_take, Nat.min_eq_left hlen]
      decide
    have hthree : 3 ≤ versionOf raw := le_of_eq hv.symm
    rw [if_pos hthree, getElem?_patch_zeros hcrc]
    simp only [hthree, true_and]

theorem logDinodeFromDisk_spec (h : logDinodeFromDisk raw = .ok logged) :
    ∃ size, coreSize (versionOf raw) = some size ∧ size ≤ raw.length ∧ logged.length = size ∧
      ∀ k, logged[k]? =
        (blankedCore raw size)[mirror (layoutOf (versionOf raw) (flags2Of raw)) k]? := by
  unfold logDinodeFromDisk at h
  split at h
  · cases h
  cases hsize : coreSize (versionOf raw) with
  | none => rw [hsize] at h; cases h
  | some size =>
    rw [hsize] at h
    change (if raw.length < size then _ else _) = _ at h
    split at h
    · cases h
    next hlt =>
    have hlen : size ≤ raw.length := Nat.le_of_not_lt hlt
    have htake : (raw.take size).length = size := by
      rw [List.length_take, Nat.min_eq_left hlen]
    set layout := layoutOf (versionOf raw) (flags2Of raw) with hlayout
    have hfit : ∀ f ∈ layout, f.1 + f.2 ≤ size := layoutOf_fits hsize _
    have hout := @getElem?_reverseFields size layout (raw.take size) (layoutOf_apart _ _)
      (le_of_eq htake.symm) hfit
    have houtlen := @length_reverseFields size layout (raw.take size) (by rwa [htake])
    rw [htake] at houtlen
    have hlogged : (if 3 ≤ versionOf raw then
        patch (reverseFields size layout (raw.take size)) diCrc [0, 0, 0, 0]
        else reverseFields size layout (raw.take size)) = logged := Except.ok.inj h
    refine ⟨size, rfl, hlen, ?_⟩
    rcases coreSize_cases hsize with ⟨hv, rfl⟩ | ⟨hv, rfl⟩
    · rw [if_neg (by omega)] at hlogged
      refine ⟨by rw [← hlogged, houtlen], fun k => ?_⟩
      rw [← hlogged, hout, getElem?_blankedCore hsize hlen, if_neg (by omega)]
    · have hthree : 3 ≤ versionOf raw := le_of_eq hv.symm
      have hcrc : diCrc + 4 ≤
          (reverseFields logDinodeSize layout (raw.take logDinodeSize)).length := by
        rw [houtlen]
        decide
      rw [if_pos hthree] at hlogged
      refine ⟨by rw [← hlogged, patch_length hcrc, houtlen], fun k => ?_⟩
      rw [← hlogged, getElem?_patch_zeros hcrc, getElem?_blankedCore hsize hlen, hout]
      have hmirror : (diCrc ≤ mirror layout k ∧ mirror layout k < diCrc + 4) ↔
          (diCrc ≤ k ∧ k < diCrc + 4) := by
        constructor
        · intro hin
          have hback : mirror layout (mirror layout k) = mirror layout k :=
            layoutOf_skips _ _ (.inr hin)
          rw [hlayout, mirror_mirror (layoutOf_apart _ _)] at hback
          exact hback ▸ hin
        · intro hin
          rwa [layoutOf_skips _ _ (.inr hin)]
      simp only [hthree, true_and, hmirror]

theorem logDinodeFromDisk_ok (hsize : coreSize (versionOf raw) = some size)
    (hlen : size ≤ raw.length) : ∃ logged, logDinodeFromDisk raw = .ok logged := by
  have hv2 : v2LogDinodeSize ≤ size := by
    rcases coreSize_cases hsize with ⟨-, rfl⟩ | ⟨-, rfl⟩ <;> decide
  unfold logDinodeFromDisk
  rw [if_neg (Nat.not_lt.mpr (le_trans hv2 hlen)), hsize]
  dsimp only
  rw [if_neg (Nat.not_lt.mpr hlen)]
  exact ⟨_, rfl⟩

theorem logDinodeToDisk_fromDisk (h : logDinodeFromDisk raw = .ok logged) :
    ∃ size, coreSize (versionOf raw) = some size ∧ size ≤ raw.length ∧
      logDinodeToDisk logged = .ok (blankedCore raw size) := by
  obtain ⟨size, hsize, hlen, hloglen, hbytes⟩ := logDinodeFromDisk_spec h
  refine ⟨size, hsize, hlen, ?_⟩
  set layout := layoutOf (versionOf raw) (flags2Of raw) with hlayout
  have hge : v2LogDinodeSize ≤ size := by
    rcases coreSize_cases hsize with ⟨-, rfl⟩ | ⟨-, rfl⟩ <;> decide
  have hversion : versionOf logged = versionOf raw := by
    refine versionOf_eq ?_
    rw [hbytes, layoutOf_skips _ _ (.inl rfl), getElem?_blankedCore hsize hlen,
      if_neg (fun hin => absurd hin.2.1 (by decide)), List.getElem?_take, if_pos (lt_of_lt_of_le (by decide) hge)]
  have hflags : (if 3 ≤ versionOf logged then leValue (slice logged diFlags2 8) else 0) =
      flags2Of raw := by
    rw [hversion, flags2Of]
    rcases coreSize_cases hsize with ⟨hv, rfl⟩ | ⟨hv, rfl⟩
    · rw [if_neg (by omega), if_neg (by omega)]
    · rw [if_pos (by omega), if_pos (by omega), beValue]
      congr 1
      refine List.ext_getElem? fun i => ?_
      have hslen := @slice_length raw diFlags2 8 (le_trans (by decide) hlen)
      by_cases hi : i < 8
      · rw [getElem?_slice, if_pos hi, hbytes, hlayout, hv, layoutOf, mirror_flags2 _ _ hi,
          getElem?_blankedCore hsize hlen, if_neg (by simp only [diFlags2, diCrc]; omega),
          List.getElem?_take, if_pos (by simp only [diFlags2, logDinodeSize]; omega),
          List.getElem?_reverse (by rw [hslen]; exact hi), hslen, getElem?_slice,
          if_pos (by omega)]
      · rw [getElem?_slice, if_neg hi, List.getElem?_eq_none]
        rw [List.length_reverse, hslen]
        omega
  unfold logDinodeToDisk
  rw [if_neg (by omega), hflags, hversion, hsize]
  change (if logged.length < size then _ else _) = _
  rw [if_neg (by omega)]
  refine congrArg Except.ok (List.ext_getElem? fun k => ?_)
  have htake : logged.take size = logged := List.take_of_length_le (le_of_eq hloglen)
  rw [htake, getElem?_reverseFields (layoutOf_apart _ _) (le_of_eq hloglen.symm)
    (layoutOf_fits hsize _)]
  change logged[mirror layout k]? = _
  rw [hbytes, hlayout, mirror_mirror (layoutOf_apart _ _)]

end

def countedCore : List UInt8 :=
  ((List.range 176).map UInt8.ofNat).set diVersion 3

abbrev xfsBmapMagic : ℕ := 0x424d4150
abbrev xfsBmapCrcMagic : ℕ := 0x424d4133

def rootSlots (usable : ℕ) : ℕ :=
  usable / 16

def moveRoot (logged out : List UInt8) (header fromSlots toSlots n : ℕ) : List UInt8 :=
  let keys := slice logged header (n * 8)
  let pointers := slice logged (header + fromSlots * 8) (n * 8)
  patch (patch out 4 keys) (4 + toSlots * 8) pointers

def loggedRootToDisk (logged : List UInt8) (v5 : Bool) (forkLen : ℕ) :
    Except Error (List UInt8) :=
  let header := if v5 then 72 else 24
  if logged.length < header ∨ forkLen < 4 then
    .error (.corruptLog s!"a logged block-map root is {logged.length} bytes, shorter than its header")
  else
    let n := beValue (slice logged 6 2)
    let loggedMax := rootSlots (logged.length - header)
    let diskMax := rootSlots (forkLen - 4)
    if loggedMax < n ∨ diskMax < n then
      .error (.corruptLog s!"a logged block-map root claims {n} entries")
    else
      let out := patch (List.replicate forkLen 0) 0 (slice logged 4 2 ++ slice logged 6 2)
      .ok (moveRoot logged out header loggedMax diskMax n)

def inodeRootFromLog (logged : List UInt8) (v5 : Bool) (capacity : ℕ) :
    Except Error (List UInt8) :=
  let body := if v5 then 72 else 24
  let bad := Error.corruptLog "a logged bmbt root does not fit its header or inode fork"
  if logged.length < body ∨ capacity < 4 then .error bad
  else
    let magic := if v5 then xfsBmapCrcMagic else xfsBmapMagic
    let level := beValue (slice logged 4 2)
    let count := beValue (slice logged 6 2)
    let sourceSlots := rootSlots (logged.length - body)
    let targetSlots := rootSlots (capacity - 4)
    if beValue (slice logged 0 4) ≠ magic ∨ level = 0 ∨ 9 < level ∨ count = 0 ∨
        sourceSlots < count ∨ targetSlots < count then .error bad
    else
      let fork := patch (List.replicate capacity 0) 0 (beBytes 2 level ++ beBytes 2 count)
      .ok (moveRoot logged fork body sourceSlots targetSlots count)

end FsXfs.Log
