import FsXfs.File.Volume
import FsXfs.File.Mapping

/-!
# Writing anywhere in a file

`write_alloc.rs`: a write at any offset, which overwrites written blocks in place, gives holes
blocks from the groups in turn, and turns the unwritten blocks it covers into written ones. The data
goes down before the record, so what is modelled here is what the record will say and the writes
made before it.
-/

namespace FsXfs.File

open Bytes FsXfs.Group

set_option autoImplicit false

def maxExtentBlocks : ℕ := 2 ^ 21 - 1

def maxFileBlock : ℕ := 2 ^ 54 - 1

/-! ## The plan -/

inductive Block where
  | inPlace (phys : ℕ)
  | whole (phys : ℕ)

def Block.phys : Block → ℕ
  | .inPlace phys => phys
  | .whole phys => phys

structure Plan where
  extents : List Extent
  holes : List (ℕ × ℕ)
  mapped : List (ℕ × Block)

def converted (e : Extent) (lo hi : ℕ) : List Extent :=
  (if e.startoff < lo then [{ e with blockcount := lo - e.startoff }] else []) ++
    [⟨lo, e.startblock + (lo - e.startoff), hi - lo, false⟩] ++
    if hi < e.endOffset then [⟨hi, e.startblock + (hi - e.startoff), e.endOffset - hi, true⟩] else []

def blockOf (e : Extent) (fb : ℕ) : Block :=
  let phys := e.startblock + (fb - e.startoff)
  if e.unwritten then .whole phys else .inPlace phys

def planStep (first last : ℕ) (s : Plan × ℕ) (e : Extent) : Plan × ℕ :=
  let (out, cursor) := s
  if e.endOffset ≤ first ∨ last < e.startoff then
    ({ out with extents := out.extents ++ [e] }, cursor)
  else
    let lo := max e.startoff first
    let hi := min e.endOffset (last + 1)
    ({ extents := out.extents ++ if e.unwritten then converted e lo hi else [e]
       holes := out.holes ++ if cursor < e.startoff then [(cursor, e.startoff - cursor)] else []
       mapped := out.mapped ++ (List.range' lo (hi - lo)).map fun fb => (fb, blockOf e fb) },
      max cursor e.endOffset)

def plan (extents : List Extent) (first last : ℕ) : Plan :=
  let (out, cursor) := (extents.insertionSort byStart).foldl (planStep first last) (⟨[], [], []⟩, first)
  if cursor ≤ last then { out with holes := out.holes ++ [(cursor, last + 1 - cursor)] } else out

/-! ## Filling the holes -/

structure Filling where
  groups : Groups
  taken : List Extent

namespace Volume

section

variable (v : Volume) (ino : ℕ)

def groupOrder : List ℕ :=
  let (home, _, _) := v.sb.splitIno ino
  (List.range v.sb.agcount).map fun i => (home + i) % 2 ^ 32 % v.sb.agcount

def fillHole (stop : ℕ) : ℕ → ℕ → ℕ → Filling → Except Error Filling
  | 0, _, _, s => .ok s
  | fuel + 1, fb, next, s =>
    if fb < stop then do
      let agno ← orElse (v.groupOrder ino)[next]?
        (.noSpace s!"no allocation group has room for the {stop - fb} blocks still wanted at file block {fb} of inode {ino}")
      let group ← v.groupFor s.groups agno
      let (group, got) ← group.takeUpTo v.crc32c v.sb v.device (min (stop - fb) maxExtentBlocks)
        (owner ino) fb
      match got with
      | none => fillHole stop fuel fb (next + 1) { s with groups := s.groups.put agno group }
      | some run =>
        fillHole stop fuel (fb + run.blockcount) next
          ⟨s.groups.put agno group,
            s.taken ++ [⟨fb, packBlock v.sb agno run.startblock, run.blockcount, false⟩]⟩
    else .ok s

def fillHoles (s : Filling) (holes : List (ℕ × ℕ)) : Except Error Filling :=
  holes.foldlM (fun s hole =>
    v.fillHole ino (hole.1 + hole.2) (hole.2 + v.sb.agcount + 1) hole.1 0 s) s

end

/-! ## The write -/

structure Written where
  old : List Extent
  taken : List Extent
  extents : List Extent
  size : ℕ
  nblocks : ℕ
  -- the writes made before the record, and whether a panic cut them short
  writes : List DataWrite
  finished : Bool

def upToPanic : List (Option DataWrite) → List DataWrite × Bool
  | [] => ([], true)
  | none :: _ => ([], false)
  | some w :: rest =>
    let (writes, finished) := upToPanic rest
    (w :: writes, finished)

section

variable (v : Volume) (ino : ℕ)

def zeroTail (old : List Extent) (size offset : ℕ) : List (Option DataWrite) :=
  let bs := v.sb.blocksize
  let tailFb := size / bs
  if size < offset ∧ size % bs ≠ 0 then
    match old.find? fun e => !e.unwritten && e.contains tailFb with
    | none => []
    | some e =>
      let zeroTo := min offset (wrap64 ((tailFb + 1) * bs))
      let start := wrap64 (v.sb.fsblockOffset (e.startblock + (tailFb - e.startoff)) + size % bs)
      [if size ≤ zeroTo then some (start, List.replicate (zeroTo - size) 0) else none]
  else []

def writeBlock (offset : ℕ) (data : List UInt8) (fb : ℕ) (block : Block) : Option DataWrite :=
  let bs := v.sb.blocksize
  let blockStart := wrap64 (fb * bs)
  let lo := max offset blockStart
  let hi := min (offset + data.length) (wrap64 (blockStart + bs))
  if lo ≤ hi then
    let src := slice data (lo - offset) (hi - lo)
    match block with
    | .inPlace phys => some (wrap64 (v.sb.fsblockOffset phys + (lo - blockStart)), src)
    | .whole phys =>
      some (v.sb.fsblockOffset phys, patch (List.replicate bs 0) (lo - blockStart) src)
  else none

def wholeBlocks (e : Extent) : List (ℕ × Block) :=
  (List.range e.blockcount).map fun i => (e.startoff + i, .whole (e.startblock + i))

def byFileBlock (a b : ℕ × Block) : Prop :=
  a.1 ≤ b.1

instance : DecidableRel byFileBlock :=
  fun a b => inferInstanceAs (Decidable (a.1 ≤ b.1))

def write (offset : ℕ) (data : List UInt8) : Except Error Written := do
  v.writable
  ensure v.sb.isV5
    (.unsupportedFeature "writing allocates v5 metadata; a v4 filesystem is not supported")
  ensure (data ≠ [])
    (.unsupportedFeature "a write of no bytes changes nothing and has nothing to log")
  ensure (offset + data.length < 2 ^ 64)
    (.unsupportedFeature s!"a write of {data.length} bytes at {offset} ends past a 64-bit offset")
  let end_ := offset + data.length
  let first := offset / v.sb.blocksize
  let last := (end_ - 1) / v.sb.blocksize
  ensure (last ≤ maxFileBlock)
    (.unsupportedFeature s!"a write ending at byte {end_} reaches file block {last}, past the last one an extent can map")
  let file ← v.inode ino
  ensure file.regular .notAFile
  ensure (file.realtime = false)
    (.unsupportedFeature s!"inode {ino} keeps its data on the real-time device")
  ensure (file.shared = false)
    (.unsupportedFeature s!"inode {ino} has reflinked extents; writing one would change what another inode reads")
  ensure (file.format ≠ .btree)
    (.unsupportedFeature s!"inode {ino} lists its extents in a B+tree, which this write does not edit")
  ensure (file.format = .extents)
    (.unsupportedFeature s!"inode {ino} stores its data inside the inode")
  let old ← v.dataExtents ino file
  let planned := plan old first last
  let filled ← v.fillHoles ino ⟨[], []⟩ planned.holes
  let extents := (planned.extents ++ filled.taken).insertionSort byStart
  let room := file.forkLen / 16
  ensure (extents.length ≤ room)
    (.unsupportedFeature s!"the write leaves inode {ino} with {extents.length} extents, more than the {room} its fork has room to list; a B+tree would be needed")
  v.intoItems filled.groups
  let taken := (filled.taken.map Extent.blockcount).sum
  ensure (taken < 2 ^ 63) (.unsupportedFeature "quota block delta overflowed")
  v.charge [(ino, (taken : ℤ))]
  checkRecords extents
  ensure (file.nrext64 ∨ extents.length < 2 ^ 32)
    (.unsupportedFeature s!"{extents.length} extents overflow the 32-bit count")
  let mapped := (planned.mapped ++ filled.taken.flatMap wholeBlocks).insertionSort byFileBlock
  let (writes, finished) := upToPanic
    (v.zeroTail old file.size offset ++ mapped.map fun p => v.writeBlock offset data p.1 p.2)
  pure ⟨old, filled.taken, extents, max file.size end_, wrap64 (file.nblocks + taken), writes,
    finished⟩

end

/-! ## What the holes are given -/

def FreeAt (v : Volume) (agno b : ℕ) : Prop :=
  ∃ group, openGroup v.crc32c v.sb v.device agno = .ok group ∧ Free group.byBlock b

variable {v : Volume} {ed' ed : GroupAlloc} {s' s : Filling}

variable {agno : ℕ}

theorem FreeAt.bounds {b : ℕ} (h : v.FreeAt agno b) :
    lastHeaderBlock v.sb < b ∧ b < v.sb.agblocks := by
  obtain ⟨group, hopen, run, hmem, hin⟩ := h
  have hspec := openGroup_spec hopen
  have hlo := hspec.runs.lo_le run hmem
  have hhi := hspec.runs.le_hi run hmem
  have hlen := hspec.length_le
  obtain ⟨hge, hlt⟩ := hin
  exact ⟨by omega, by omega⟩

/-- An extent of blocks one group had free. -/
structure Fresh (v : Volume) (agno agblock : ℕ) (e : Extent) : Prop where
  agno_lt : agno < v.sb.agcount
  startblock_eq : e.startblock = packBlock v.sb agno agblock
  pos : 0 < e.blockcount
  written : e.unwritten = false
  free : ∀ b, agblock ≤ b → b < agblock + e.blockcount → v.FreeAt agno b

theorem agblocks_le_pow (v : Volume) : v.sb.agblocks ≤ 2 ^ v.sb.agblklog :=
  v.accepted.geometry.agblocks_le

theorem Fresh.holds_iff {agblock : ℕ} {e : Extent} (h : Fresh v agno agblock e) {n : ℕ} :
    e.Holds n ↔ ∃ b, agblock ≤ b ∧ b < agblock + e.blockcount ∧
      n = packBlock v.sb agno b := by
  have hlast := (h.free (agblock + (e.blockcount - 1)) (by omega) (by have := h.pos; omega)).bounds
  have hpow := v.agblocks_le_pow
  rw [Extent.Holds, h.startblock_eq]
  constructor
  · rintro ⟨hge, hlt⟩
    refine ⟨agblock + (n - packBlock v.sb agno agblock), by omega, by omega, ?_⟩
    rw [← packBlock_add (by omega)]
    omega
  · rintro ⟨b, hge, hlt, rfl⟩
    have hadd := @packBlock_add v.sb agno agblock (b - agblock) (by omega)
    rw [show agblock + (b - agblock) = b by omega] at hadd
    omega

/-- What filling holes has done: each group opened holds what it had free less what was taken, and
the extents taken share no block. -/
structure Drawn (v : Volume) (s : Filling) : Prop where
  opened : ∀ agno ed, s.groups.lookup agno = some ed →
    ∃ group, openGroup v.crc32c v.sb v.device agno = .ok group ∧
      FreeRuns (lastHeaderBlock v.sb + 1) v.sb.agblocks ed.byBlock ∧
      ∀ b, Free ed.byBlock b → Free group.byBlock b ∧
        ∀ e ∈ s.taken, ¬e.Holds (packBlock v.sb agno b)
  fresh : ∀ e ∈ s.taken, ∃ agno agblock, (s.groups.lookup agno).isSome ∧ Fresh v agno agblock e
  apart : s.taken.Pairwise fun d e => ∀ n, ¬(d.Holds n ∧ e.Holds n)

theorem drawn_nil (v : Volume) : Drawn v ⟨[], []⟩ where
  opened := by simp
  fresh := by simp
  apart := .nil

variable {want offset : ℕ} {ino : ℤ} {run : FreeExtent}

theorem takeAligned_alloc {align : ℕ}
    (h : ed.takeAligned v.crc32c v.sb v.device want align ino offset = .ok (ed', run)) :
    run.blockcount = want ∧ allocExtent ed.byBlock run = .ok ed'.byBlock := by
  obtain ⟨start, -, h⟩ := takeAligned_eq_ok h
  have halloc := (takeAt_free h).1
  obtain ⟨free, -, h⟩ := bind_eq_ok.mp h
  obtain ⟨mid, -, h⟩ := bind_eq_ok.mp h
  cases h
  exact ⟨rfl, halloc⟩

theorem takeUpTo_some (h : ed.takeUpTo v.crc32c v.sb v.device want ino offset = .ok (ed', some run)) :
    allocExtent ed.byBlock run = .ok ed'.byBlock ∧ 0 < run.blockcount ∧ run.blockcount ≤ want := by
  rcases takeUpTo_eq_ok h with ⟨-, hnone, -⟩ | ⟨extent, hne, hrun, htake⟩
  · cases hnone
  · cases hrun
    obtain ⟨hcount, halloc⟩ := takeAligned_alloc htake
    have hle : ed.upTo want ≤ want := by
      unfold GroupAlloc.upTo
      split
      · exact le_rfl
      · exact min_le_right _ _
    exact ⟨halloc, by omega, by omega⟩

theorem takeUpTo_none (h : ed.takeUpTo v.crc32c v.sb v.device want ino offset = .ok (ed', none)) :
    ed' = ed := by
  rcases takeUpTo_eq_ok h with ⟨-, -, rfl⟩ | ⟨extent, -, hsome, -⟩
  · rfl
  · cases hsome

section

variable {v : Volume} {s : Filling} {agno : ℕ} {ed ed' : GroupAlloc}

theorem Drawn.group (h : Drawn v s) (hgroup : v.groupFor s.groups agno = .ok ed) :
    ∃ group, openGroup v.crc32c v.sb v.device agno = .ok group ∧
      FreeRuns (lastHeaderBlock v.sb + 1) v.sb.agblocks ed.byBlock ∧
      ∀ b, Free ed.byBlock b → Free group.byBlock b ∧
        ∀ e ∈ s.taken, ¬e.Holds (packBlock v.sb agno b) := by
  unfold groupFor at hgroup
  split at hgroup
  next open_ hsome => exact h.opened agno ed (Except.ok.inj hgroup ▸ hsome)
  next hnone =>
    have hspec := openGroup_spec hgroup
    have hruns := freeRuns_mono le_rfl hspec.length_le hspec.runs
    refine ⟨ed, hgroup, hruns, fun b hb => ⟨hb, fun e he hholds => ?_⟩⟩
    obtain ⟨agno', agblock, hopen, hfresh⟩ := h.fresh e he
    obtain ⟨b', hge, hlt, heq⟩ := hfresh.holds_iff.mp hholds
    have hb' := (hfresh.free b' hge hlt).bounds
    obtain ⟨x, hx, hin⟩ := hb
    have hend := hruns.le_hi x hx
    have hpow := v.agblocks_le_pow
    have hlast := hin.2
    obtain ⟨rfl, -⟩ := packBlock_inj (by omega) (by omega) heq
    rw [hnone] at hopen
    cases hopen

theorem Drawn.pass (h : Drawn v s) (hgroup : v.groupFor s.groups agno = .ok ed) :
    Drawn v { s with groups := s.groups.put agno ed } where
  opened := by
    intro k ed' hk
    rw [Groups.lookup_put] at hk
    split at hk
    next heq =>
      subst heq
      cases hk
      exact h.group hgroup
    next => exact h.opened k ed' hk
  fresh := by
    intro e he
    obtain ⟨k, agblock, hopen, hfresh⟩ := h.fresh e he
    refine ⟨k, agblock, ?_, hfresh⟩
    rw [Groups.lookup_put]
    split
    · rfl
    · exact hopen
  apart := h.apart

theorem Drawn.take {fb : ℕ} (h : Drawn v s) (hagno : agno < v.sb.agcount)
    (hgroup : v.groupFor s.groups agno = .ok ed) (hpos : 0 < run.blockcount)
    (halloc : allocExtent ed.byBlock run = .ok ed'.byBlock) :
    Drawn v ⟨s.groups.put agno ed',
      s.taken ++ [⟨fb, packBlock v.sb agno run.startblock, run.blockcount, false⟩]⟩ := by
  obtain ⟨group, hopen, hruns, hfree⟩ := h.group hgroup
  have hnew : Fresh v agno run.startblock
      ⟨fb, packBlock v.sb agno run.startblock, run.blockcount, false⟩ :=
    { agno_lt := hagno
      startblock_eq := rfl
      pos := hpos
      written := rfl
      free := fun b hge hlt =>
        ⟨group, hopen, (hfree b (free_of_allocExtent halloc ⟨hge, hlt⟩)).1⟩ }
  have hapart : ∀ e ∈ s.taken, ∀ n, ¬(e.Holds n ∧
      Extent.Holds ⟨fb, packBlock v.sb agno run.startblock, run.blockcount, false⟩ n) := by
    rintro e he n ⟨hn, hn'⟩
    obtain ⟨b, hge, hlt, rfl⟩ := hnew.holds_iff.mp hn'
    exact (hfree b (free_of_allocExtent halloc ⟨hge, hlt⟩)).2 e he hn
  refine ⟨fun k ed'' hk => ?_, fun e he => ?_, ?_⟩
  · rw [Groups.lookup_put] at hk
    split at hk
    next heq =>
      subst heq
      cases hk
      refine ⟨group, hopen, hruns.alloc halloc, fun b hb => ?_⟩
      obtain ⟨hbefore, hnot⟩ := (free_allocExtent hruns halloc).mp hb
      obtain ⟨hgroupFree, htaken⟩ := hfree b hbefore
      refine ⟨hgroupFree, fun e he hholds => ?_⟩
      rcases List.mem_append.mp he with he | he
      · exact htaken e he hholds
      · obtain rfl := List.mem_singleton.mp he
        obtain ⟨b', hge, hlt, heq⟩ := hnew.holds_iff.mp hholds
        have hb' := (hnew.free b' hge hlt).bounds
        have hb := FreeAt.bounds ⟨group, hopen, hgroupFree⟩
        have hpow := v.agblocks_le_pow
        obtain ⟨-, rfl⟩ := packBlock_inj (by omega) (by omega) heq
        exact hnot ⟨hge, hlt⟩
    next hne =>
      obtain ⟨other, hother, hruns', hfree'⟩ := h.opened k ed'' hk
      refine ⟨other, hother, hruns', fun b hb => ⟨(hfree' b hb).1, fun e he hholds => ?_⟩⟩
      rcases List.mem_append.mp he with he | he
      · exact (hfree' b hb).2 e he hholds
      · obtain rfl := List.mem_singleton.mp he
        obtain ⟨b', hge, hlt, heq⟩ := hnew.holds_iff.mp hholds
        have hb' := (hnew.free b' hge hlt).bounds
        have hb := FreeAt.bounds ⟨other, hother, (hfree' b hb).1⟩
        have hpow := v.agblocks_le_pow
        obtain ⟨rfl, -⟩ := packBlock_inj (by omega) (by omega) heq
        exact hne rfl
  · rcases List.mem_append.mp he with he | he
    · obtain ⟨k, agblock, hopen', hfresh⟩ := h.fresh e he
      refine ⟨k, agblock, ?_, hfresh⟩
      rw [Groups.lookup_put]
      split
      · rfl
      · exact hopen'
    · obtain rfl := List.mem_singleton.mp he
      exact ⟨agno, run.startblock, by simp [Groups.lookup_put], hnew⟩
  · refine List.pairwise_append.mpr ⟨h.apart, List.pairwise_singleton _ _, fun e he e' he' => ?_⟩
    obtain rfl := List.mem_singleton.mp he'
    exact hapart e he

end

variable {ino next : ℕ}

theorem groupOrder_lt (h : (v.groupOrder ino)[next]? = some agno) :
    next < v.sb.agcount ∧ agno < v.sb.agcount := by
  obtain ⟨hlt, hget⟩ := List.getElem?_eq_some_iff.mp h
  simp only [groupOrder, List.length_map, List.length_range] at hlt
  simp only [groupOrder, List.getElem_map] at hget
  exact ⟨hlt, hget ▸ Nat.mod_lt _ (by omega)⟩

theorem fillHole_cases {stop fuel fb : ℕ} (h : v.fillHole ino stop (fuel + 1) fb next s = .ok s') :
    (stop ≤ fb ∧ s' = s) ∨
      (fb < stop ∧ ∃ agno ed ed' got, (v.groupOrder ino)[next]? = some agno ∧
        v.groupFor s.groups agno = .ok ed ∧
        ed.takeUpTo v.crc32c v.sb v.device (min (stop - fb) maxExtentBlocks) (owner ino) fb =
          .ok (ed', got) ∧
        ((got = none ∧ v.fillHole ino stop fuel fb (next + 1)
            { s with groups := s.groups.put agno ed' } = .ok s') ∨
          ∃ run, got = some run ∧ v.fillHole ino stop fuel (fb + run.blockcount) next
            ⟨s.groups.put agno ed',
              s.taken ++ [⟨fb, packBlock v.sb agno run.startblock, run.blockcount, false⟩]⟩ =
                .ok s')) := by
  simp only [fillHole] at h
  split at h
  · next hlt =>
    obtain ⟨agno, hagno, h⟩ := bind_eq_ok.mp h
    obtain ⟨ed, hed, h⟩ := bind_eq_ok.mp h
    obtain ⟨⟨ed', got⟩, htake, h⟩ := bind_eq_ok.mp h
    refine .inr ⟨hlt, agno, ed, ed', got, orElse_eq_ok.mp hagno, hed, htake, ?_⟩
    cases got with
    | none => exact .inl ⟨rfl, h⟩
    | some run => exact .inr ⟨run, rfl, h⟩
  · next hlt => exact .inl ⟨by omega, (Except.ok.inj h).symm⟩

/-- Extents one after another over the file blocks from `fb` to `stop`. -/
def Tiles (stop : ℕ) : ℕ → List Extent → Prop
  | fb, [] => fb = stop
  | fb, e :: rest => e.startoff = fb ∧ 0 < e.blockcount ∧ Tiles stop e.endOffset rest

theorem fillHole_spec {stop fuel fb : ℕ} (hs : Drawn v s) (hfb : fb ≤ stop)
    (hfuel : stop - fb + (v.sb.agcount - next) < fuel)
    (h : v.fillHole ino stop fuel fb next s = .ok s') :
    Drawn v s' ∧ ∃ new, s'.taken = s.taken ++ new ∧ Tiles stop fb new := by
  induction fuel generalizing fb next s with
  | zero => exact absurd hfuel (by omega)
  | succ fuel ih =>
    rcases fillHole_cases h with ⟨hdone, rfl⟩ | ⟨hlt, agno, ed, ed', got, hagno, hed, htake, hrest⟩
    · exact ⟨hs, [], by simp, by simp only [Tiles]; omega⟩
    · obtain ⟨hnext, hag⟩ := groupOrder_lt hagno
      rcases hrest with ⟨rfl, hrest⟩ | ⟨run, rfl, hrest⟩
      · obtain rfl := takeUpTo_none htake
        have hpassed := ih (hs.pass hed) hfb (by omega) hrest
        exact hpassed
      · obtain ⟨halloc, hpos, hle⟩ := takeUpTo_some htake
        obtain ⟨hdrawn, new, hnew, htiles⟩ :=
          ih (hs.take hag hed hpos halloc) (by omega) (by omega) hrest
        refine ⟨hdrawn, ⟨fb, packBlock v.sb agno run.startblock, run.blockcount, false⟩ :: new, ?_,
          rfl, hpos, htiles⟩
        rw [hnew, List.append_assoc, List.singleton_append]

/-- Every hole is given extents that cover it, of blocks that were free and are shared with no other
extent taken. -/
theorem fillHoles_spec {holes : List (ℕ × ℕ)} (hs : Drawn v s)
    (h : v.fillHoles ino s holes = .ok s') :
    Drawn v s' ∧ ∃ news, s'.taken = s.taken ++ news.flatten ∧
      List.Forall₂ (fun hole new => Tiles (hole.1 + hole.2) hole.1 new) holes news := by
  induction holes generalizing s with
  | nil =>
    cases h
    exact ⟨hs, [], by simp, .nil⟩
  | cons hole holes ih =>
    obtain ⟨mid, hmid, h⟩ := bind_eq_ok.mp h
    obtain ⟨hdrawn, new, hnew, htiles⟩ := fillHole_spec hs (by omega) (by omega) hmid
    obtain ⟨hdrawn', news, hnews, hall⟩ := ih hdrawn h
    refine ⟨hdrawn', new :: news, ?_, .cons htiles hall⟩
    rw [hnews, hnew, List.flatten_cons, List.append_assoc]

/-! ## What a write comes to -/

/-- What a write that is not refused has found, and what it leaves. -/
structure WriteSpec (v : Volume) (ino offset : ℕ) (data : List UInt8) (file : Inode)
    (filled : Filling) (out : Written) : Prop where
  data_ne : data ≠ []
  end_lt : offset + data.length < 2 ^ 64
  inode : v.inode ino = .ok file
  regular : file.regular = true
  format : file.format = .extents
  old : v.dataExtents ino file = .ok out.old
  filling : v.fillHoles ino ⟨[], []⟩ (plan out.old (offset / v.sb.blocksize)
    ((offset + data.length - 1) / v.sb.blocksize)).holes = .ok filled
  taken : out.taken = filled.taken
  extents : out.extents = ((plan out.old (offset / v.sb.blocksize)
    ((offset + data.length - 1) / v.sb.blocksize)).extents ++ filled.taken).insertionSort byStart
  records : checkRecords out.extents = .ok ()
  size : out.size = max file.size (offset + data.length)
  writes : upToPanic (v.zeroTail out.old file.size offset ++
    (((plan out.old (offset / v.sb.blocksize) ((offset + data.length - 1) / v.sb.blocksize)).mapped ++
      filled.taken.flatMap wholeBlocks).insertionSort byFileBlock).map fun p =>
        v.writeBlock offset data p.1 p.2) = (out.writes, out.finished)

theorem write_spec {data : List UInt8} {out : Written} (h : v.write ino offset data = .ok out) :
    ∃ file filled, WriteSpec v ino offset data file filled out := by
  obtain ⟨-, -, h⟩ := bind_eq_ok.mp h
  obtain ⟨-, -, h⟩ := bind_eq_ok.mp h
  obtain ⟨_, hdata, h⟩ := bind_eq_ok.mp h
  obtain ⟨_, hend, h⟩ := bind_eq_ok.mp h
  obtain ⟨-, -, h⟩ := bind_eq_ok.mp h
  obtain ⟨file, hinode, h⟩ := bind_eq_ok.mp h
  obtain ⟨_, hregular, h⟩ := bind_eq_ok.mp h
  obtain ⟨-, -, h⟩ := bind_eq_ok.mp h
  obtain ⟨-, -, h⟩ := bind_eq_ok.mp h
  obtain ⟨-, -, h⟩ := bind_eq_ok.mp h
  obtain ⟨_, hformat, h⟩ := bind_eq_ok.mp h
  obtain ⟨old, hold, h⟩ := bind_eq_ok.mp h
  obtain ⟨filled, hfilled, h⟩ := bind_eq_ok.mp h
  obtain ⟨-, -, h⟩ := bind_eq_ok.mp h
  obtain ⟨-, -, h⟩ := bind_eq_ok.mp h
  obtain ⟨-, -, h⟩ := bind_eq_ok.mp h
  obtain ⟨-, -, h⟩ := bind_eq_ok.mp h
  obtain ⟨_, hrecords, h⟩ := bind_eq_ok.mp h
  obtain ⟨-, -, h⟩ := bind_eq_ok.mp h
  cases h
  exact ⟨file, filled,
    { data_ne := ensure_eq_ok.mp hdata
      end_lt := ensure_eq_ok.mp hend
      inode := hinode
      regular := ensure_eq_ok.mp hregular
      format := ensure_eq_ok.mp hformat
      old := hold
      filling := hfilled
      taken := rfl
      extents := rfl
      records := hrecords
      size := rfl
      writes := rfl }⟩

theorem mem_upToPanic {ws : List (Option DataWrite)} {out : List DataWrite × Bool} {w : DataWrite}
    (h : upToPanic ws = out) (hw : w ∈ out.1) : some w ∈ ws := by
  induction ws generalizing out with
  | nil =>
    subst h
    simp [upToPanic] at hw
  | cons x ws ih =>
    subst h
    cases x with
    | none => simp [upToPanic] at hw
    | some x =>
      rcases List.mem_cons.mp hw with rfl | hw
      · exact List.mem_cons_self
      · exact List.mem_cons_of_mem _ (ih rfl hw)

/-! ## What a plan says -/

section

variable {first last cursor fb : ℕ} {out : Plan} {e : Extent} {es : List Extent}

def extentsOf (first last : ℕ) (e : Extent) : List Extent :=
  if e.endOffset ≤ first ∨ last < e.startoff then [e]
  else if e.unwritten then converted e (max e.startoff first) (min e.endOffset (last + 1)) else [e]

def mappedOf (first last : ℕ) (e : Extent) : List (ℕ × Block) :=
  (List.range' (max e.startoff first) (min e.endOffset (last + 1) - max e.startoff first)).map
    fun fb => (fb, blockOf e fb)

theorem planStep_split (s : Plan × ℕ) :
    (planStep first last s e).1.extents = s.1.extents ++ extentsOf first last e ∧
      (planStep first last s e).1.mapped = s.1.mapped ++ mappedOf first last e := by
  by_cases hout : e.endOffset ≤ first ∨ last < e.startoff
  · -- no block of the extent is in the range
    have hnone : min e.endOffset (last + 1) - max e.startoff first = 0 := by omega
    rw [planStep, if_pos hout, extentsOf, if_pos hout, mappedOf, hnone]
    exact ⟨rfl, (List.append_nil _).symm⟩
  · rw [planStep, if_neg hout, extentsOf, if_neg hout]
    exact ⟨rfl, rfl⟩

theorem plan_split (extents : List Extent) (first last : ℕ) :
    (plan extents first last).extents =
        (extents.insertionSort byStart).flatMap (extentsOf first last) ∧
      (plan extents first last).mapped =
        (extents.insertionSort byStart).flatMap (mappedOf first last) := by
  have hfold : ∀ (es : List Extent) (s : Plan × ℕ), (es.foldl (planStep first last) s).1.extents =
        s.1.extents ++ es.flatMap (extentsOf first last) ∧
      (es.foldl (planStep first last) s).1.mapped =
        s.1.mapped ++ es.flatMap (mappedOf first last) := by
    intro es
    induction es with
    | nil => simp
    | cons e es ih =>
      intro s
      obtain ⟨hextents, hmapped⟩ := @planStep_split first last e s
      rw [List.foldl_cons, (ih _).1, (ih _).2, hextents, hmapped, List.append_assoc,
        List.append_assoc]
      exact ⟨rfl, rfl⟩
  unfold plan
  dsimp only
  split
  · exact hfold _ _
  · exact hfold _ _

theorem mem_mappedOf {p : ℕ × Block} :
    p ∈ mappedOf first last e ↔
      e.contains p.1 = true ∧ p.2 = blockOf e p.1 ∧ first ≤ p.1 ∧ p.1 ≤ last := by
  obtain ⟨fb, b⟩ := p
  simp only [mappedOf, List.mem_map, List.mem_range'_1, Prod.mk.injEq, Extent.contains_iff,
    Extent.endOffset]
  constructor
  · rintro ⟨fb, hfb, rfl, rfl⟩
    exact ⟨by omega, rfl, by omega, by omega⟩
  · rintro ⟨hin, rfl, hlo, hhi⟩
    exact ⟨fb, by omega, rfl, rfl⟩

theorem mem_plan_mapped {extents : List Extent} {p : ℕ × Block} :
    p ∈ (plan extents first last).mapped ↔
      ∃ e ∈ extents, e.contains p.1 = true ∧ p.2 = blockOf e p.1 ∧ first ≤ p.1 ∧ p.1 ≤ last := by
  simp only [(plan_split extents first last).2, List.mem_flatMap, List.mem_insertionSort,
    mem_mappedOf]

theorem mapsTo_extentsOf {phys : ℕ} {u : Bool} :
    MapsTo (extentsOf first last e) fb phys u ↔ e.contains fb = true ∧
      phys = e.startblock + (fb - e.startoff) ∧
      u = (e.unwritten && !decide (first ≤ fb ∧ fb ≤ last)) := by
  unfold extentsOf converted Extent.endOffset
  cases u <;> cases hun : e.unwritten <;> simp only [if_true, Bool.false_eq_true, if_false] <;>
    split_ifs <;>
    simp only [mapsTo_append, mapsTo_nil, mapsTo_singleton, Extent.contains_iff, hun] <;>
    simp <;> omega

/-- The blocks from `start` to `last` that no extent maps, in runs that do not touch. -/
structure Gaps (start last : ℕ) (es : List Extent) (holes : List (ℕ × ℕ)) : Prop where
  mem : ∀ fb, (∃ h ∈ holes, h.1 ≤ fb ∧ fb < h.1 + h.2) ↔
    start ≤ fb ∧ fb ≤ last ∧ ∀ e ∈ es, e.contains fb = false
  pos : ∀ h ∈ holes, start ≤ h.1 ∧ 0 < h.2
  apart : holes.Pairwise fun h h' => h.1 + h.2 < h'.1

theorem contains_eq_false : e.contains fb = false ↔ fb < e.startoff ∨ e.endOffset ≤ fb := by
  rw [← Bool.not_eq_true, Extent.contains_iff]
  unfold Extent.endOffset
  omega

theorem gaps_nil (start last : ℕ) :
    Gaps start last [] (if start ≤ last then [(start, last + 1 - start)] else []) := by
  split_ifs <;> constructor <;> simp <;> omega

variable {holes : List (ℕ × ℕ)}

theorem Gaps.skip (h : Gaps cursor last es holes)
    (hout : e.endOffset ≤ cursor ∨ last < e.startoff) : Gaps cursor last (e :: es) holes := by
  refine ⟨fun fb => ?_, h.pos, h.apart⟩
  rw [h.mem, List.forall_mem_cons, contains_eq_false]
  refine and_congr_right fun hlo => and_congr_right fun hhi => ?_
  exact (and_iff_right (by omega)).symm

theorem Gaps.cover (h : Gaps (max cursor e.endOffset) last es holes) (hpos : 0 < e.blockcount)
    (hlast : e.startoff ≤ last) (hafter : ∀ d ∈ es, e.endOffset ≤ d.startoff) :
    Gaps cursor last (e :: es)
      ((if cursor < e.startoff then [(cursor, e.startoff - cursor)] else []) ++ holes) := by
  obtain ⟨hmem, hpos', hapart⟩ := h
  have hlen : e.startoff < e.endOffset := Nat.lt_add_of_pos_right hpos
  refine ⟨fun fb => ?_, ?_, ?_⟩
  · have hhead : (∃ d ∈ (if cursor < e.startoff then [(cursor, e.startoff - cursor)] else []),
        d.1 ≤ fb ∧ fb < d.1 + d.2) ↔ cursor ≤ fb ∧ fb < e.startoff := by
      split_ifs <;> simp <;> omega
    have hlater : fb < e.startoff → ∀ d ∈ es, d.contains fb = false := fun hlt d hd =>
      contains_eq_false.mpr (.inl (hlt.trans (hlen.trans_le (hafter d hd))))
    simp only [List.mem_append, or_and_right, exists_or, hhead, hmem, List.forall_mem_cons,
      contains_eq_false]
    grind
  · split_ifs <;> grind
  · split_ifs <;> grind

theorem foldl_planStep_gaps (hsorted : Sorted es) (hfirst : first ≤ cursor) :
    ∃ holes, Gaps cursor last es holes ∧ ∀ r, es.foldl (planStep first last) (out, cursor) = r →
      r.1.holes ++ (if r.2 ≤ last then [(r.2, last + 1 - r.2)] else []) = out.holes ++ holes := by
  induction es generalizing out cursor with
  | nil => exact ⟨_, gaps_nil cursor last, by rintro r rfl; rfl⟩
  | cons e es ih =>
    obtain ⟨hpair, hpos⟩ := sorted_iff.mp hsorted
    obtain ⟨hafter, hpair⟩ := List.pairwise_cons.mp hpair
    obtain ⟨hpos, hrest⟩ := List.forall_mem_cons.mp hpos
    have ih := fun out cursor => @ih cursor out (sorted_iff.mpr ⟨hpair, hrest⟩)
    by_cases hout : e.endOffset ≤ first ∨ last < e.startoff
    · rw [List.foldl_cons, planStep, if_pos hout]
      obtain ⟨holes, hgaps, hfold⟩ := ih { out with extents := out.extents ++ [e] } cursor hfirst
      exact ⟨holes, hgaps.skip (by omega), hfold⟩
    · rw [List.foldl_cons, planStep, if_neg hout]
      obtain ⟨holes, hgaps, hfold⟩ := ih _ (max cursor e.endOffset) (by omega)
      refine ⟨_, hgaps.cover hpos (by omega) hafter, fun r hr => ?_⟩
      rw [hfold r hr, List.append_assoc]

/-- A write's plan: the map as it was but for the blocks of the range, which are written; the holes
of the range as maximal runs; and each mapped block of the range, once. -/
theorem plan_maps {extents : List Extent} (hsorted : Sorted extents) :
    (∀ fb phys u, MapsTo (plan extents first last).extents fb phys u ↔
      ∃ u', MapsTo extents fb phys u' ∧ u = (u' && !decide (first ≤ fb ∧ fb ≤ last))) ∧
    Gaps first last extents (plan extents first last).holes ∧
    ((plan extents first last).mapped.Pairwise fun p q => p.1 < q.1) ∧
    ∀ fb b, (fb, b) ∈ (plan extents first last).mapped ↔ first ≤ fb ∧ fb ≤ last ∧
      ∃ phys u, MapsTo extents fb phys u ∧ b = if u then .whole phys else .inPlace phys := by
  obtain ⟨hpair, -⟩ := sorted_iff.mp hsorted
  have hsort : extents.insertionSort byStart = extents :=
    List.Pairwise.insertionSort_eq (hpair.imp fun hab => (Nat.le_add_right _ _).trans hab)
  obtain ⟨hextents, hmapped⟩ := plan_split extents first last
  rw [hsort] at hextents hmapped
  refine ⟨fun fb phys u => ?_, ?_, ?_, fun fb b => ?_⟩
  · simp only [hextents, mapsTo_flatMap, mapsTo_extentsOf]
    constructor
    · rintro ⟨e, he, hc, hphys, hu⟩
      exact ⟨e.unwritten, ⟨e, he, hc, hphys, rfl⟩, hu⟩
    · rintro ⟨_, ⟨e, he, hc, hphys, rfl⟩, hu⟩
      exact ⟨e, he, hc, hphys, hu⟩
  · obtain ⟨holes, hgaps, hfold⟩ :=
      @foldl_planStep_gaps first last first ⟨[], [], []⟩ extents hsorted (le_refl _)
    convert hgaps
    rw [← List.nil_append holes, ← hfold _ rfl, plan, hsort]
    dsimp only
    split_ifs
    · rfl
    · exact (List.append_nil _).symm
  · rw [hmapped]
    refine List.pairwise_flatMap.mpr ⟨fun e _ => ?_, hpair.imp fun {a b} hab p hp q hq => ?_⟩
    · exact List.pairwise_map.mpr List.pairwise_lt_range'
    · have hp' := Extent.contains_iff.mp (mem_mappedOf.mp hp).1
      have hq' := Extent.contains_iff.mp (mem_mappedOf.mp hq).1
      unfold Extent.endOffset at hab
      omega
  · rw [mem_plan_mapped]
    constructor
    · rintro ⟨e, he, hc, hb, hlo, hhi⟩
      exact ⟨hlo, hhi, _, e.unwritten, ⟨e, he, hc, rfl, rfl⟩, hb⟩
    · rintro ⟨hlo, hhi, _, _, ⟨e, he, hc, rfl, rfl⟩, hb⟩
      exact ⟨e, he, hc, hb, hlo, hhi⟩

theorem plan_two_extents : Gaps 3 9 [⟨0, 100, 6, true⟩, ⟨8, 200, 4, false⟩]
    (plan [⟨0, 100, 6, true⟩, ⟨8, 200, 4, false⟩] 3 9).holes :=
  (plan_maps (by decide)).2.1

end

end Volume

end FsXfs.File
