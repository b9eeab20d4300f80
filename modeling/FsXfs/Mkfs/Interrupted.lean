import FsXfs.Lib.Cache
import FsXfs.Mkfs.Write

/-!
# A format that is interrupted

`mkfs::write` flushes once, after its last write, so a device with a volatile cache may have kept any
selection of the writes when the format stops part-way. The primary superblock is the last of them,
and nothing keeps it from being the only one that arrived.
-/

namespace FsXfs.Mkfs

open Bytes Quota Redo Cache WholeSuperblock

set_option autoImplicit false

/-- What a write gives each byte of the device. -/
def patchOf (w : DevWrite) : Patch ℕ UInt8 := fun a =>
  if w.1 ≤ a then w.2[a - w.1]? else none

def readDev (device : ℕ → UInt8) (n : ℕ) : List UInt8 :=
  (List.range n).map device

def after (writes : List DevWrite) (device : ℕ → UInt8) : ℕ → UInt8 :=
  applyAll (writes.map patchOf) device

/-- There is a superblock at offset 0 that `Superblock::parse` accepts. -/
def Recognised (crc32c : List UInt8 → ℕ) (lossy : List UInt8 → List UInt8) (device : ℕ → UInt8) :
    Prop :=
  ∃ n sb, parse crc32c lossy (readDev device n) = .ok sb

section

variable {crc32c : List UInt8 → ℕ} {lossy : List UInt8 → List UInt8} {device : ℕ → UInt8}

/-! ## What the start of the device says -/

theorem unrecognised_of_zero (h : ∀ a < 4, device a = 0) : ¬Recognised crc32c lossy device := by
  rintro ⟨n, sb, hparse⟩
  obtain ⟨hread, -⟩ := (parse_eq_ok crc32c lossy).mp hparse
  have hsize : 264 ≤ n := by
    have := hread.size
    rwa [readDev, List.length_map, List.length_range] at this
  have hzero : slice (readDev device n) 0 4 = List.replicate 4 0 := by
    refine List.ext_getElem? fun k => ?_
    rw [getElem?_slice, List.getElem?_replicate]
    by_cases hk : k < 4
    · have hn : k < n := by omega
      rw [if_pos hk, if_pos hk, Nat.zero_add, readDev, List.getElem?_map,
        List.getElem?_range hn, Option.map_some, h k hk]
    · rw [if_neg hk, if_neg hk]
  have hmagic := hread.magic
  rw [beAt, hzero] at hmagic
  exact absurd hmagic (by decide)

theorem recognised_of_sector {sector : List UInt8} {sb : WholeSuperblock}
    (hparse : parse crc32c lossy sector = .ok sb)
    (h : ∀ a b, sector[a]? = some b → device a = b) : Recognised crc32c lossy device := by
  refine ⟨sector.length, sb, ?_⟩
  have hread : readDev device sector.length = sector := by
    refine List.ext_getElem? fun k => ?_
    rw [readDev, List.getElem?_map]
    by_cases hk : k < sector.length
    · rw [List.getElem?_range hk, Option.map_some, List.getElem?_eq_getElem hk,
        h k _ (List.getElem?_eq_getElem hk)]
    · rw [List.getElem?_eq_none (by rw [List.length_range]; omega), Option.map_none,
        List.getElem?_eq_none (by omega)]
  rw [hread, hparse]

end

/-! ## What each write puts at the start of the device -/

/-- Nothing is written at the first bytes, or zeros are. -/
def Blank (w : DevWrite) : Prop :=
  ∀ a < 4, ∀ b, patchOf w a = some b → b = 0

variable {w : DevWrite} {a : ℕ}

theorem patchOf_of_lt (h : a < w.1) : patchOf w a = none :=
  if_neg (Nat.not_le.mpr h)

theorem blank_of_le (h : 4 ≤ w.1) : Blank w := by
  intro a ha b hb
  rw [patchOf_of_lt (Nat.lt_of_lt_of_le ha h)] at hb
  cases hb

theorem zero_writes_zero {offset len : ℕ} {b : UInt8} (h : w ∈ zero offset len)
    (hb : patchOf w a = some b) : b = 0 := by
  obtain ⟨k, -, rfl⟩ := List.mem_map.mp h
  simp only [patchOf, List.getElem?_replicate] at hb
  split at hb
  · split at hb
    · exact (Option.some.inj hb).symm
    · cases hb
  · cases hb

theorem blank_of_zero {offset len : ℕ} (h : w ∈ zero offset len) : Blank w :=
  fun _ _ _ hb => zero_writes_zero h hb

section

variable {crc32c : List UInt8 → ℕ} {deviceBytes : ℕ} {opts : Options} {uuid : List UInt8} {p : Plan}
  {size now : ℕ}

theorem Laid.offset_ge (h : Laid deviceBytes opts uuid p) (ag agbno : ℕ) :
    (ag * p.sb.agblocks + agbno) * 512 ≤ p.offset ag agbno := by
  have hpos : 1 ≤ p.sb.blocksize / sector := by
    rw [h.blocksize_eq]
    rcases h.blocksize with hbs | hbs | hbs
    all_goals
      rw [hbs]
      decide
  exact Nat.mul_le_mul_right 512 (Nat.le_mul_of_pos_right _ hpos)

theorem Laid.agblocks_pos (h : Laid deviceBytes opts uuid p) : 0 < p.sb.agblocks :=
  Nat.lt_of_le_of_lt (Nat.zero_le _) h.log_lt

variable {sb : WholeSuperblock} {ag : ℕ} {ws layout : List DevWrite} {device : ℕ → UInt8}
  {lossy : List UInt8 → List UInt8}

section

variable (h : Laid deviceBytes opts uuid p)

include h

theorem Laid.blank_offset {agbno : ℕ} (hne : ag ≠ 0 ∨ agbno ≠ 0) (bytes : List UInt8) :
    Blank (p.offset ag agbno, bytes) := by
  refine blank_of_le (le_trans ?_ (h.offset_ge ag agbno))
  have hpos := h.agblocks_pos
  rcases hne with hag | hagbno
  · have : 1 ≤ ag * p.sb.agblocks := Nat.mul_pos (by omega) hpos
    omega
  · omega

theorem Laid.blank_group (hws : writeGroup crc32c p ag = .ok ws) :
    ∀ w ∈ ws, Blank w := by
  simp only [writeGroup, bind_eq_ok, pure, Except.pure, Except.ok.injEq] at hws
  obtain ⟨length, -, free, -, copy, hcopy, start, -, rfl⟩ := hws
  rw [List.forall_mem_cons, List.forall_mem_singleton]
  have hheader : p.headerBlocks ≠ 0 := h.headerBlocks_pos.ne'
  refine ⟨?_, h.blank_offset (.inr hheader) _⟩
  by_cases hag : ag = 0
  · -- the header of the first group leaves the sector of the primary superblock as zeros
    rw [copySector, if_pos hag] at hcopy
    cases hcopy
    intro a ha b hb
    have hoffset : p.offset ag 0 = 0 := by
      rw [hag, Plan.offset, Plan.daddr, Nat.zero_mul, Nat.zero_add, Nat.zero_mul, Nat.zero_mul]
    have hin : a < (List.replicate sector (0 : UInt8)).length := by
      rw [List.length_replicate]
      exact Nat.lt_of_lt_of_le ha (by decide)
    rw [patchOf, if_pos (by rw [hoffset]; exact Nat.zero_le _), hoffset, Nat.sub_zero] at hb
    simp only [header, List.append_assoc] at hb
    rw [List.getElem?_append_left hin, List.getElem?_eq_getElem hin, List.getElem_replicate] at hb
    exact (Option.some.inj hb).symm
  · exact h.blank_offset (.inl hag) _

theorem laidOut_blank (hlayout : laidOut crc32c p size now = .ok layout) :
    ∀ w ∈ layout, Blank w := by
  simp only [laidOut, bind_eq_ok, pure, Except.pure, Except.ok.injEq] at hlayout
  obtain ⟨groups, hgroups, rfl⟩ := hlayout
  have hlog : p.logAgbno ≠ 0 := by
    have hpos := h.headerBlocks_pos
    rw [h.logAgbno]
    omega
  intro w hw
  simp only [List.mem_append, List.mem_singleton, writeLog] at hw
  rcases hw with ((hw | hw) | rfl) | hw | rfl
  · exact blank_of_zero hw
  · obtain ⟨ws, hws, hw⟩ := List.mem_flatten.mp hw
    obtain ⟨ag, -, hag⟩ := mem_of_mapM_eq_ok hgroups hws
    exact h.blank_group hag w hw
  · exact h.blank_offset (.inr h.chunkAgbno_pos.ne') _
  · exact blank_of_zero hw
  · exact h.blank_offset (.inr hlog) _

/-! ## A plan's writes can all be built -/

theorem Laid.sectsize_eq : p.sb.sectsize = 512 := by
  rw [h.sb]
  rfl

theorem Laid.apply_ok (hsb : sb.sectsize = p.sb.sectsize) :
    ∃ out, WholeSuperblock.apply crc32c (List.replicate sector 0) sb = .ok out := by
  refine ⟨_, apply_eq ?_⟩
  rw [hsb, h.sectsize_eq, List.length_replicate]

theorem Laid.writeGroup_ok (hag : ag < p.sb.agcount) :
    ∃ ws, writeGroup crc32c p ag = .ok ws := by
  obtain ⟨counts, hcounts, -⟩ := h.counted
  obtain ⟨count, -, hcount⟩ := ok_of_mapM_eq_ok hcounts (List.mem_range.mpr hag)
  simp only [Plan.countedFree, Plan.freeBlocks, bind_eq_ok] at hcount
  obtain ⟨_, ⟨free, hfree, -⟩, -⟩ := hcount
  obtain ⟨start, hstart, length, hlength⟩ :
      ∃ start, p.agflStart ag = .ok start ∧ ∃ length, p.length ag = .ok length := by
    have hparts := hfree
    simp only [Plan.freeExtents, bind_eq_ok] at hparts
    obtain ⟨start, hstart, -, -, length, hlength, -⟩ := hparts
    exact ⟨start, hstart, length, hlength⟩
  obtain ⟨copy, hcopy⟩ : ∃ copy, copySector crc32c p ag = .ok copy := by
    unfold copySector
    split
    · exact ⟨_, rfl⟩
    · exact h.apply_ok rfl
  simp only [writeGroup, hlength, hfree, hcopy, hstart, bind, Except.bind, pure, Except.pure,
    Except.ok.injEq, exists_eq']

theorem Laid.laidOut_ok :
    ∃ layout, laidOut crc32c p size now = .ok layout := by
  have hgroup : ∀ ag ∈ List.range p.sb.agcount, ∃ ws, writeGroup crc32c p ag = .ok ws := fun ag hag =>
    h.writeGroup_ok (List.mem_range.mp hag)
  obtain ⟨groups, hgroups⟩ := mapM_exists_ok hgroup
  simp only [laidOut, hgroups, bind, Except.bind, pure, Except.pure, Except.ok.injEq, exists_eq']

theorem Laid.write_ok :
    ∃ layout primary, laidOut crc32c p size now = .ok layout ∧
      WholeSuperblock.apply crc32c (List.replicate sector 0) p.sb = .ok primary := by
  obtain ⟨layout, hlayout⟩ := h.laidOut_ok
  obtain ⟨primary, hprimary⟩ := h.apply_ok rfl
  exact ⟨layout, primary, hlayout, hprimary⟩

end

/-! ## What an interrupted format leaves -/

theorem after_eq_zero (hws : ∀ w ∈ ws, ∀ b, patchOf w a = some b → b = 0) (hdevice : device a = 0) :
    after ws device a = 0 := by
  by_cases hcov : Covers (ws.map patchOf) a
  · refine applyAll_of_agree (fun patch hpatch b hb => ?_) hcov
    obtain ⟨w, hw, rfl⟩ := List.mem_map.mp hpatch
    exact hws w hw b hb
  · rw [after, applyAll_of_not_covers hcov, hdevice]

theorem after_zero_of_blank (hws : ∀ w ∈ ws, Blank w) (hdevice : ∀ a < 4, device a = 0) :
    ∀ a < 4, after ws device a = 0 := fun a ha =>
  after_eq_zero (fun w hw => hws w hw a ha) (hdevice a ha)

theorem zeroed_start (hsize : minDeviceBytes ≤ size) (disk : ℕ → UInt8) :
    ∀ a < 4, after (zero 0 (min mib size)) disk a = 0 := by
  intro a ha
  have hmib : min mib size = mib := Nat.min_eq_left (le_trans (by decide) hsize)
  have hzero : zero 0 mib = [(0, List.replicate mib 0)] := by
    rw [zero, show divCeil mib zeroChunk = 1 by decide]
    simp
  have hin : a < mib := Nat.lt_of_lt_of_le ha (by decide)
  have hpatch : patchOf (0, List.replicate mib 0) a = some 0 := by
    rw [patchOf, if_pos (Nat.zero_le a), Nat.sub_zero, List.getElem?_replicate, if_pos hin]
  rw [hmib, hzero, after, List.map_singleton, applyAll_cons, applyAll_nil, apply_of_some hpatch]

/-- Each write shows wherever no later one lies. -/
def Shown (writes : List DevWrite) (device : ℕ → UInt8) : Prop :=
  ∀ front w rest, writes = front ++ w :: rest →
    ∀ a b, patchOf w a = some b → ¬Covers (rest.map patchOf) a → device a = b

theorem after_eq_iff_shown {writes kept : List DevWrite} (hsub : kept.Sublist writes) :
    after kept device = after writes device ↔ Shown writes (after kept device) := by
  rw [after, after, applyAll_eq_iff (hsub.map patchOf)]
  constructor
  · rintro h front w rest rfl a b hw hrest
    exact h (front.map patchOf) (patchOf w) (rest.map patchOf) (by simp) a b hw hrest
  · intro h front patch rest hmap a b hpatch hrest
    obtain ⟨front', tail, rfl, rfl, htail⟩ := List.map_eq_append_iff.mp hmap
    obtain ⟨w, rest', rfl, rfl, rfl⟩ := List.map_eq_cons_iff.mp htail
    exact h front' w rest' rfl a b hpatch hrest

theorem write_eq_ok {primary : List UInt8} :
    write crc32c p size now = .ok (zero 0 (min mib size) ++ layout ++ [(0, primary)]) ↔
      laidOut crc32c p size now = .ok layout ∧
        WholeSuperblock.apply crc32c (List.replicate sector 0) p.sb = .ok primary := by
  simp only [write, bind_eq_ok, pure, Except.pure, Except.ok.injEq, List.append_assoc,
    List.append_cancel_left_eq]
  constructor
  · rintro ⟨layout', hlayout, primary', hprimary, heq⟩
    obtain ⟨rfl, hlast⟩ := List.append_inj' heq rfl
    obtain rfl : primary' = primary := by simpa using hlast
    exact ⟨hlayout, hprimary⟩
  · rintro ⟨hlayout, hprimary⟩
    exact ⟨layout, hlayout, primary, hprimary, rfl⟩

theorem Laid.primary (h : Laid deviceBytes opts uuid p) (hcrc32c : ∀ bytes, crc32c bytes < 2 ^ 32)
    (hdevice : deviceBytes < 2 ^ 64) (huuid : uuid.length = 16) (lossy : List UInt8 → List UInt8)
    {primary : List UInt8}
    (hprimary : WholeSuperblock.apply crc32c (List.replicate sector 0) p.sb = .ok primary) :
    primary.length = sector ∧ parse crc32c lossy primary = .ok (readBack lossy p.sb) := by
  obtain ⟨out, hout, hlength, hparse⟩ := @parse_apply crc32c lossy p.sb (List.replicate sector 0)
    hcrc32c (h.storable hdevice huuid) (by rw [h.sectsize_eq, List.length_replicate])
  obtain rfl := Except.ok.inj (hprimary.symm.trans hout)
  rw [List.length_replicate] at hlength
  exact ⟨hlength, hparse⟩

theorem recognised_of_primary {primary : List UInt8} (hparse : parse crc32c lossy primary = .ok sb)
    (front : List DevWrite) (device : ℕ → UInt8) :
    Recognised crc32c lossy (after (front ++ [(0, primary)]) device) := by
  refine recognised_of_sector hparse fun a b hb => ?_
  have hpatch : patchOf (0, primary) a = some b := by
    rw [patchOf, if_pos (Nat.zero_le a), Nat.sub_zero, hb]
  rw [after, List.map_append, List.map_singleton]
  exact applyAll_last hpatch (by simp [Covers])

theorem not_blank_of_parse {primary : List UInt8} (hparse : parse crc32c lossy primary = .ok sb) :
    ¬Blank (0, primary) := by
  intro hblank
  refine unrecognised_of_zero ?_ (recognised_of_primary hparse [] fun _ => 0)
  refine after_zero_of_blank (fun w hw => ?_) fun _ _ => rfl
  rwa [List.mem_singleton.mp hw]

theorem recognised_iff (h : Laid deviceBytes opts uuid p) (hcrc32c : ∀ bytes, crc32c bytes < 2 ^ 32)
    (hdevice : deviceBytes < 2 ^ 64) (huuid : uuid.length = 16) (lossy : List UInt8 → List UInt8)
    {kept : List DevWrite} {primary : List UInt8} (hlayout : laidOut crc32c p size now = .ok layout)
    (hprimary : WholeSuperblock.apply crc32c (List.replicate sector 0) p.sb = .ok primary)
    (hsub : kept.Sublist (layout ++ [(0, primary)])) (hzero : ∀ a < 4, device a = 0) :
    Recognised crc32c lossy (after kept device) ↔ (0, primary) ∈ kept := by
  have hblank := laidOut_blank h hlayout
  obtain ⟨-, hparse⟩ := h.primary hcrc32c hdevice huuid lossy hprimary
  obtain ⟨front, last, rfl, hfront, hlast⟩ := List.sublist_append_iff.mp hsub
  have hblank' : ∀ w ∈ front, Blank w := fun w hw => hblank w (hfront.subset hw)
  rcases List.sublist_singleton.mp hlast with rfl | rfl
  · rw [List.append_nil]
    exact iff_of_false (unrecognised_of_zero (after_zero_of_blank hblank' hzero)) fun hmem =>
      not_blank_of_parse hparse (hblank' _ hmem)
  · exact iff_of_true (recognised_of_primary hparse front device) (by simp)

/-- An interrupted format is finished or not recognised exactly when the write of the superblock is
not among those that reached the device, or every byte that the format writes shows there. -/
theorem interrupted_iff {random : List UInt8} (lossy : List UInt8 → List UInt8)
    (hcrc32c : ∀ bytes, crc32c bytes < 2 ^ 32) (hdevice : deviceBytes < 2 ^ 64)
    (hrandom : random.length = 16) (hplan : plan deviceBytes opts random = .ok p)
    {layout kept : List DevWrite} {primary : List UInt8}
    (hwrite : write crc32c p deviceBytes now =
      .ok (zero 0 (min mib deviceBytes) ++ layout ++ [(0, primary)]))
    {t : List (Cache.Event DevWrite)}
    (ht : t <+: (layout ++ [(0, primary)]).map Cache.Event.write ++ [Cache.Event.flush])
    (hkept : Kept t kept) (disk : ℕ → UInt8) :
    let zeroed := after (zero 0 (min mib deviceBytes)) disk
    (after kept zeroed = after (layout ++ [(0, primary)]) zeroed ∨
        ¬Recognised crc32c lossy (after kept zeroed)) ↔
      ((0, primary) ∈ kept → Shown (layout ++ [(0, primary)]) (after kept zeroed)) := by
  intro zeroed
  obtain ⟨hlayout, hprimary⟩ := write_eq_ok.mp hwrite
  have hlaid := plan_laid hplan
  have hsub := kept_sublist ht hkept
  have huuid : (opts.uuid.getD random).length = 16 := by
    cases hu : opts.uuid with
    | none => exact hrandom
    | some u => exact opts.uuid_length u hu
  rw [after_eq_iff_shown hsub, recognised_iff hlaid hcrc32c hdevice huuid lossy hlayout hprimary hsub
    (zeroed_start hlaid.device disk)]
  exact or_comm.trans imp_iff_not_or.symm

end

/-! ## A format of 300 MiB -/

def defaultOptions : Options where
  blockSize := 4096
  agcount := none
  label := none
  uuid := none
  agcount_lt := by simp
  uuid_length := by simp

theorem smallest_plan : ∃ p, plan minDeviceBytes defaultOptions (List.replicate 16 0) = .ok p :=
  exists_ok_of_toBool (by decide)

/-- Every write reached the device, or the superblock's did not and any of the others. -/
theorem smallest_interrupted :
    ∃ p layout primary, plan minDeviceBytes defaultOptions (List.replicate 16 0) = .ok p ∧
      write (fun _ => 0) p minDeviceBytes 0 =
        .ok (zero 0 (min mib minDeviceBytes) ++ layout ++ [(0, primary)]) ∧
      let zeroed := after (zero 0 (min mib minDeviceBytes)) fun _ => 0
      ∀ kept, kept.Sublist layout ∨ kept = layout ++ [(0, primary)] →
        after kept zeroed = after (layout ++ [(0, primary)]) zeroed ∨
          ¬Recognised (fun _ => 0) id (after kept zeroed) := by
  obtain ⟨p, hplan⟩ := smallest_plan
  have hlaid := plan_laid hplan
  obtain ⟨layout, primary, hlayout, hprimary⟩ :=
    @Laid.write_ok (fun _ => 0) minDeviceBytes _ _ p minDeviceBytes 0 hlaid
  have hwrite := write_eq_ok.mpr ⟨hlayout, hprimary⟩
  obtain ⟨-, hparse⟩ := hlaid.primary (fun _ => by decide) (by decide) (by decide) id hprimary
  refine ⟨p, layout, primary, hplan, hwrite, fun kept hkept => ?_⟩
  have hsub : kept.Sublist (layout ++ [(0, primary)]) := by
    rcases hkept with hlost | rfl
    · exact hlost.trans (List.sublist_append_left _ _)
    · exact List.Sublist.refl _
  refine (interrupted_iff id (fun _ => by decide) (by decide) (by decide) hplan hwrite
    (List.prefix_append _ _) (kept_before_flush hsub) fun _ => 0).mpr fun hmem => ?_
  rcases hkept with hlost | rfl
  · exact absurd (laidOut_blank hlaid hlayout _ (hlost.subset hmem)) (not_blank_of_parse hparse)
  · exact (after_eq_iff_shown (List.Sublist.refl _)).mp rfl

theorem laidOut_log {crc32c : List UInt8 → ℕ} {p : Plan} {size now : ℕ} {layout : List DevWrite}
    (hlayout : laidOut crc32c p size now = .ok layout) :
    ∃ front, layout = front ++ [(p.offset p.logAg p.logAgbno, unmountRecord p)] := by
  simp only [laidOut, bind_eq_ok, pure, Except.pure, Except.ok.injEq] at hlayout
  obtain ⟨groups, -, rfl⟩ := hlayout
  exact ⟨_, by rw [writeLog, ← List.append_assoc]⟩

theorem smallest_lost_log :
    ∃ p layout primary kept, plan minDeviceBytes defaultOptions (List.replicate 16 0) = .ok p ∧
      write (fun _ => 0) p minDeviceBytes 0 =
        .ok (zero 0 (min mib minDeviceBytes) ++ layout ++ [(0, primary)]) ∧
      Kept ((layout ++ [(0, primary)]).map Cache.Event.write) kept ∧
      let zeroed := after (zero 0 (min mib minDeviceBytes)) fun _ => 0
      let log := p.offset p.logAg p.logAgbno
      after kept zeroed log = 0 ∧ after (layout ++ [(0, primary)]) zeroed log = 0xfe ∧
        ¬(after kept zeroed = after (layout ++ [(0, primary)]) zeroed ∨
          ¬Recognised (fun _ => 0) id (after kept zeroed)) := by
  obtain ⟨p, hplan⟩ := smallest_plan
  have hlaid := plan_laid hplan
  obtain ⟨layout, primary, hlayout, hprimary⟩ :=
    @Laid.write_ok (fun _ => 0) minDeviceBytes _ _ p minDeviceBytes 0 hlaid
  obtain ⟨hlength, hparse⟩ := hlaid.primary (fun _ => by decide) (by decide) (by decide) id hprimary
  have hfar : primary.length ≤ p.offset p.logAg p.logAgbno := by
    have hlog : 1 ≤ p.logAgbno := by
      rw [hlaid.logAgbno]
      exact le_trans (by decide) (Nat.le_add_left rootBlocks _)
    have hge := hlaid.offset_ge p.logAg p.logAgbno
    rw [hlength]
    show 512 ≤ _
    omega
  have hmiss : patchOf (0, primary) (p.offset p.logAg p.logAgbno) = none := by
    rw [patchOf, if_pos (Nat.zero_le _), Nat.sub_zero, List.getElem?_eq_none hfar]
  have hlost : after [(0, primary)] (after (zero 0 (min mib minDeviceBytes)) fun _ => 0)
      (p.offset p.logAg p.logAgbno) = 0 := by
    refine after_eq_zero (fun w hw b hb => ?_)
      (after_eq_zero (fun w hw b hb => zero_writes_zero hw hb) rfl)
    rw [List.mem_singleton.mp hw, hmiss] at hb
    cases hb
  have hwritten : after (layout ++ [(0, primary)])
      (after (zero 0 (min mib minDeviceBytes)) fun _ => 0) (p.offset p.logAg p.logAgbno) = 0xfe := by
    obtain ⟨front, rfl⟩ := laidOut_log hlayout
    have hrecord : patchOf (p.offset p.logAg p.logAgbno, unmountRecord p)
        (p.offset p.logAg p.logAgbno) = some 0xfe := by
      rw [patchOf, if_pos (le_refl _), Nat.sub_self]
      rfl
    simp only [after, List.append_assoc, List.map_append, List.map_cons, List.singleton_append]
    refine applyAll_last hrecord ?_
    rintro ⟨patch, hpatch, hsome⟩
    rw [List.map_nil, List.mem_singleton] at hpatch
    rw [hpatch, hmiss] at hsome
    cases hsome
  refine ⟨p, layout, primary, [(0, primary)], hplan, write_eq_ok.mpr ⟨hlayout, hprimary⟩,
    kept_before_flush (List.sublist_append_right _ _), hlost, hwritten, ?_⟩
  rintro (hsame | hnone)
  · rw [hsame, hwritten] at hlost
    exact absurd hlost (by decide)
  · exact hnone (recognised_of_primary hparse [] _)

end FsXfs.Mkfs
