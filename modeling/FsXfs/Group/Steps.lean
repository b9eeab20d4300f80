import FsXfs.Group.Alloc

/-!
# What the edits of a group can do

Every call on an open group does one of a few things to it. `Step` lists them, `edit_step` says that
a call is one of them, and `run_invariant` carries a property of the editor along a sequence of
calls.
-/

namespace FsXfs.Group

open Bytes Log

set_option autoImplicit false

def Edit.names : Edit → Option (ℤ × ℕ)
  | .take _ owner offset => some (owner, offset)
  | .takeAligned _ _ owner offset => some (owner, offset)
  | .takeUpTo _ owner offset => some (owner, offset)
  | .takeSettled _ owner offset => some (owner, offset)
  | _ => none

inductive RmapPut (record : Rmap) : Option (List Rmap × List ℕ) → Option (List Rmap × List ℕ) → Prop
  | none : RmapPut record none none
  | some {records records' : List Rmap} {blocks : List ℕ} :
      rmapInsert records record = .ok records' →
      RmapPut record (some (records, blocks)) (some (records', blocks))

inductive Step (ed : GroupAlloc) : Edit → GroupAlloc → ℤ → Prop
  | idle (e : Edit) : Step ed e ed 0
  | took {e : Edit} {free : List FreeExtent} {rm : Option (List Rmap × List ℕ)}
      {extent : FreeExtent} {owner : ℤ} {offset : ℕ} :
      e.names = some (owner, offset) → allocExtent ed.byBlock extent = .ok free →
      RmapPut ⟨extent.startblock, extent.blockcount, owner, offset⟩ ed.rmap rm →
      Step ed e { ed with byBlock := free, rmap := rm, took := true } (-extent.blockcount)
  | gave {free : List FreeExtent} {run : GroupRun} :
      freeExtent ed.byBlock run.extent = .ok free →
      Step ed (.giveBack run) { ed with byBlock := free, took := true } run.blockcount
  | forgot {records records' : List Rmap} {blocks : List ℕ} {record : Rmap} :
      ed.rmap = some (records, blocks) → rmapRemove records record = .ok records' →
      Step ed (.forgetRmap record) { ed with rmap := some (records', blocks), took := true } 0
  | remembered {e : Edit} {records records' : List Rmap} {blocks : List ℕ} {record : Rmap} :
      e = .rememberRmap record ∨ e = .rememberMovedRmap record →
      ed.rmap = some (records, blocks) →
      rmapInsert records record = .ok records' ∨ rmapInsertShared records record = .ok records' →
      Step ed e { ed with rmap := some (records', blocks), took := true } 0
  | released {records records' : List Refcount} {blocks : List ℕ} {ranges : List FreeExtent}
      {startblock blockcount : ℕ} :
      ed.refcount = some (records, blocks) →
      release records startblock blockcount = .ok (ranges, records') →
      Step ed (.releaseShared startblock blockcount) { ed with
        refcount := some (records', blocks), took := ed.took || decide (records' ≠ records) } 0

section

variable {crc32c : List UInt8 → ℕ} {sb : Superblock} {device : BlockRead} {ed ed' : GroupAlloc}
  {e : Edit} {moved : ℤ} {record : Rmap}

theorem putRmap_spec (h : ed.putRmap record = .ok ed') :
    (ed.rmap = none ∧ ed' = ed) ∨ ∃ records records' blocks, ed.rmap = some (records, blocks) ∧
      rmapInsert records record = .ok records' ∧
      ed' = { ed with rmap := some (records', blocks), took := true } := by
  unfold GroupAlloc.putRmap at h
  split at h
  next hnone => exact .inl ⟨hnone, (Except.ok.inj h).symm⟩
  next records blocks hsome =>
    obtain ⟨records', hinsert, h⟩ := bind_eq_ok.mp h
    exact .inr ⟨records, records', blocks, hsome, hinsert, (Except.ok.inj h).symm⟩

variable {want offset : ℕ} {owner : ℤ} {extent : FreeExtent}

theorem takeAt_step {start : ℕ} (hnames : e.names = some (owner, offset))
    (h : ed.takeAt start want owner offset = .ok (ed', extent)) :
    Step ed e ed' (-extent.blockcount) := by
  obtain ⟨free, halloc, h⟩ := bind_eq_ok.mp h
  obtain ⟨mid, hput, h⟩ := bind_eq_ok.mp h
  cases h
  rcases putRmap_spec hput with ⟨hnone, rfl⟩ | ⟨records, records', blocks, hsome, hinsert, rfl⟩
  · refine .took hnames halloc ?_
    rw [hnone]
    exact .none
  · refine .took hnames halloc ?_
    rw [hsome]
    exact .some hinsert

theorem takeAligned_eq_ok {align : ℕ}
    (h : ed.takeAligned crc32c sb device want align owner offset = .ok (ed', extent)) :
    ∃ start, ed.byBlock.findSome? (GroupAlloc.alignedStart (max align 1) want) = some start ∧
      ed.takeAt start want owner offset = .ok (ed', extent) := by
  unfold GroupAlloc.takeAligned at h
  split at h
  · obtain ⟨free, -, h⟩ := bind_eq_ok.mp h
    split at h
    · cases h
    · cases h
  next start hfind => exact ⟨start, hfind, h⟩

theorem takeUpTo_eq_ok {got : Option FreeExtent}
    (h : ed.takeUpTo crc32c sb device want owner offset = .ok (ed', got)) :
    (ed.upTo want = 0 ∧ got = none ∧ ed' = ed) ∨ ∃ extent, ed.upTo want ≠ 0 ∧ got = some extent ∧
      ed.takeAligned crc32c sb device (ed.upTo want) 1 owner offset = .ok (ed', extent) := by
  unfold GroupAlloc.takeUpTo at h
  split at h
  next hzero =>
    cases h
    exact .inl ⟨hzero, rfl, rfl⟩
  next hpos =>
    obtain ⟨⟨mid, extent⟩, htake, h⟩ := bind_eq_ok.mp h
    cases h
    exact .inr ⟨extent, hpos, rfl, htake⟩

theorem takeAligned_step {align : ℕ} (hnames : e.names = some (owner, offset))
    (h : ed.takeAligned crc32c sb device want align owner offset = .ok (ed', extent)) :
    Step ed e ed' (-extent.blockcount) := by
  obtain ⟨start, -, h⟩ := takeAligned_eq_ok h
  exact takeAt_step hnames h

theorem rememberMovedRmap_step (h : ed.rememberMovedRmap record = .ok ed') :
    Step ed (.rememberMovedRmap record) ed' 0 := by
  unfold GroupAlloc.rememberMovedRmap at h
  split at h
  · rcases putRmap_spec h with ⟨-, rfl⟩ | ⟨records, records', blocks, hsome, hinsert, rfl⟩
    · exact .idle _
    · exact .remembered (.inr rfl) hsome (.inl hinsert)
  · split at h
    next hnone => exact (Except.ok.inj h) ▸ .idle _
    next records blocks hsome =>
      obtain ⟨records', hinsert, h⟩ := bind_eq_ok.mp h
      exact (Except.ok.inj h) ▸ .remembered (.inr rfl) hsome (.inr hinsert)

theorem edit_step (h : edit crc32c sb device ed e = .ok (ed', moved)) : Step ed e ed' moved := by
  cases e with
  | take want owner offset =>
    obtain ⟨⟨mid, extent⟩, htake, h⟩ := bind_eq_ok.mp h
    cases h
    exact takeAligned_step rfl htake
  | takeAligned want align owner offset =>
    obtain ⟨⟨mid, extent⟩, htake, h⟩ := bind_eq_ok.mp h
    cases h
    exact takeAligned_step rfl htake
  | takeUpTo want owner offset =>
    obtain ⟨⟨mid, got⟩, htake, h⟩ := bind_eq_ok.mp h
    cases h
    rcases takeUpTo_eq_ok htake with ⟨-, rfl, rfl⟩ | ⟨extent, -, rfl, htaken⟩
    · exact .idle _
    · exact takeAligned_step rfl htaken
  | takeSettled want owner offset =>
    obtain ⟨⟨mid, extent⟩, htake, h⟩ := bind_eq_ok.mp h
    cases h
    unfold GroupAlloc.takeSettled at htake
    split at htake
    · cases htake
    · exact takeAt_step rfl htake
  | giveBack run =>
    obtain ⟨mid, hgive, h⟩ := bind_eq_ok.mp h
    cases h
    obtain ⟨free, hfree, hgive⟩ := bind_eq_ok.mp hgive
    exact (Except.ok.inj hgive) ▸ .gave hfree
  | forgetRmap record =>
    obtain ⟨mid, hforget, h⟩ := bind_eq_ok.mp h
    cases h
    unfold GroupAlloc.forgetRmap at hforget
    split at hforget
    · exact (Except.ok.inj hforget) ▸ .idle _
    next records blocks hsome =>
      obtain ⟨records', hremove, hforget⟩ := bind_eq_ok.mp hforget
      exact (Except.ok.inj hforget) ▸ .forgot hsome hremove
  | rememberRmap record =>
    obtain ⟨mid, hput, h⟩ := bind_eq_ok.mp h
    cases h
    rcases putRmap_spec hput with ⟨-, rfl⟩ | ⟨records, records', blocks, hsome, hinsert, rfl⟩
    · exact .idle _
    · exact .remembered (.inl rfl) hsome (.inl hinsert)
  | rememberMovedRmap record =>
    obtain ⟨mid, hput, h⟩ := bind_eq_ok.mp h
    cases h
    exact rememberMovedRmap_step hput
  | releaseShared startblock blockcount =>
    obtain ⟨⟨mid, ranges⟩, hrelease, h⟩ := bind_eq_ok.mp h
    cases h
    unfold GroupAlloc.releaseShared at hrelease
    split at hrelease
    · obtain ⟨rfl, -⟩ := Prod.mk.inj (Except.ok.inj hrelease)
      exact .idle _
    next records blocks hsome =>
      obtain ⟨⟨freed, records'⟩, hgiven, hpair⟩ := bind_eq_ok.mp hrelease
      obtain ⟨rfl, -⟩ := Prod.mk.inj (Except.ok.inj hpair)
      exact .released hsome hgiven

theorem run_invariant {P : GroupAlloc → ℤ → Prop} {edits : List Edit}
    (hstep : ∀ e ∈ edits, ∀ ed ed' m n, P ed m → Step ed e ed' n → P ed' (m + n))
    {m : ℤ} (hP : P ed m) (h : run crc32c sb device ed edits = .ok (ed', moved)) :
    P ed' (m + moved) := by
  induction edits generalizing ed m moved with
  | nil =>
    cases h
    rw [Int.add_zero]
    exact hP
  | cons e edits ih =>
    obtain ⟨⟨mid, first⟩, hedit, h⟩ := bind_eq_ok.mp h
    obtain ⟨⟨last, rest⟩, hrest, h⟩ := bind_eq_ok.mp h
    cases h
    rw [← Int.add_assoc]
    exact ih (fun e he => hstep e (List.mem_cons_of_mem _ he))
      (hstep e List.mem_cons_self _ _ _ _ hP (edit_step hedit)) hrest

end

/-! ## An open group -/

theorem checkRunsFrom_eq_ok {sb : Superblock} {agno length i previous : ℕ} {records : List FreeExtent} :
    checkRunsFrom sb agno length i previous records = .ok () ↔
      FreeRuns (lastHeaderBlock sb + 1) length records ∧ ∀ e ∈ records, previous ≤ e.startblock := by
  induction records generalizing i previous with
  | nil => simp [checkRunsFrom, freeRuns_nil]
  | cons e rest ih =>
    have hend : e.end_ = e.startblock + e.blockcount := rfl
    have hcons : FreeRuns (lastHeaderBlock sb + 1) length (e :: rest) ↔
        (0 < e.blockcount ∧ lastHeaderBlock sb + 1 ≤ e.startblock ∧ e.end_ ≤ length) ∧
          FreeRuns (lastHeaderBlock sb + 1) length rest ∧ ∀ x ∈ rest, e.end_ ≤ x.startblock := by
      change FreeRuns _ _ ([e] ++ rest) ↔ _
      rw [freeRuns_append, freeRuns_singleton]
      simp
    unfold checkRunsFrom notFreeSpace
    rw [hcons, List.forall_mem_cons]
    by_cases hpos : e.blockcount = 0
    · rw [if_pos hpos]
      exact iff_of_false (by simp) fun h => absurd h.1.1.1 (by omega)
    by_cases hlo : e.startblock ≤ lastHeaderBlock sb
    · rw [if_neg hpos, if_pos hlo]
      exact iff_of_false (by simp) fun h => absurd h.1.1.2.1 (by omega)
    by_cases hhi : length < e.end_
    · rw [if_neg hpos, if_neg hlo, if_pos hhi]
      exact iff_of_false (by simp) fun h => absurd h.1.1.2.2 (by omega)
    by_cases hprev : e.startblock < previous
    · rw [if_neg hpos, if_neg hlo, if_neg hhi, if_pos hprev]
      exact iff_of_false (by simp) fun h => absurd h.2.1 (by omega)
    rw [if_neg hpos, if_neg hlo, if_neg hhi, if_neg hprev]
    rw [ih]
    constructor
    · rintro ⟨hruns, hafter⟩
      exact ⟨⟨⟨by omega, by omega, by omega⟩, hruns, hafter⟩, by omega,
        fun x hx => le_trans (by omega) (hafter x hx)⟩
    · rintro ⟨⟨-, hruns, hafter⟩, -⟩
      exact ⟨hruns, hafter⟩

theorem checkRuns_eq_ok {sb : Superblock} {agno length : ℕ} {records : List FreeExtent} :
    checkRuns sb agno length records = .ok () ↔ FreeRuns (lastHeaderBlock sb + 1) length records := by
  rw [checkRuns, checkRunsFrom_eq_ok]
  simp

def GroupAlloc.allBlocks (ed : GroupAlloc) : List ℕ :=
  ed.bnoBlocks ++ ed.cntBlocks ++ treeBlocks ed.rmap ++ treeBlocks ed.refcount

structure Opened (sb : Superblock) (group : GroupAlloc) : Prop where
  runs : FreeRuns (lastHeaderBlock sb + 1) group.agfl.length group.byBlock
  length_le : group.agfl.length ≤ sb.agblocks
  list : group.agfl.Ok sb
  count_eq : group.agfl.count = beAt group.agfRaw agfFlcount 4
  raw_length : group.agfRaw.length = sb.sectsize
  blocks_lt : ∀ b ∈ group.allBlocks, b < 2 ^ 32
  counted : ∀ tree ∈ group.refcount,
    Counted (lastHeaderBlock sb + 1) group.agfl.length tree.1
  untouched : group.took = false
  list_raw : group.agfl.raw = group.agflRaw
  settled_eq : group.settled = group.byBlock
  bno_ne : group.bnoBlocks ≠ []
  cnt_ne : group.cntBlocks ≠ []
  rmap_ne : ∀ tree ∈ group.rmap, tree.2 ≠ []

section

variable {crc32c : List UInt8 → ℕ} {sb : Superblock} {device : BlockRead} {agno : ℕ}
  {group : GroupAlloc}

variable {agf : Agf}

theorem agf_parse_spec {buf : List UInt8} (h : Agf.parse crc32c sb buf agno = .ok agf) :
    agf = agfOf buf ∧ agf.length ≤ sb.agblocks := by
  simp only [Agf.parse, bind_eq_ok, ensure_eq_ok, pure, Except.pure, Except.ok.injEq, exists_const]
    at h
  obtain ⟨-, -, _, -, hlength, -, -, rfl⟩ := h
  exact ⟨rfl, hlength⟩

theorem openRmap_spec {tree : Option (List Rmap × List ℕ)} (hroot : agf.root rmap < 2 ^ 32)
    (h : openRmap crc32c sb device agno agf = .ok tree) :
    (∀ b ∈ treeBlocks tree, b < 2 ^ 32) ∧ ∀ t ∈ tree, t.2 ≠ [] := by
  unfold openRmap at h
  split at h
  · obtain ⟨⟨records, blocks⟩, hwalk, h⟩ := bind_eq_ok.mp h
    rw [← Except.ok.inj h]
    refine ⟨walkBlocks_lt hwalk hroot, fun t ht => ?_⟩
    rw [← Option.some.inj ht]
    exact List.ne_nil_of_mem (root_mem_walkBlocks hwalk)
  · rw [← Except.ok.inj h]
    simp [treeBlocks]

theorem openRefcount_spec {tree : Option (List Refcount × List ℕ)}
    (hroot : agf.refcountRoot < 2 ^ 32) (h : openRefcount crc32c sb device agno agf = .ok tree) :
    (∀ b ∈ treeBlocks tree, b < 2 ^ 32) ∧
      ∀ t ∈ tree, Counted (lastHeaderBlock sb + 1) agf.length t.1 := by
  unfold openRefcount at h
  split at h
  · obtain ⟨⟨records, blocks⟩, hwalk, h⟩ := bind_eq_ok.mp h
    obtain ⟨_, hcheck, h⟩ := bind_eq_ok.mp h
    rw [← Except.ok.inj h]
    refine ⟨walkBlocks_lt hwalk hroot, fun t ht => ?_⟩
    rw [← Option.some.inj ht]
    exact checkCounts_eq_ok.mp hcheck
  · rw [← Except.ok.inj h]
    simp [treeBlocks]

theorem openGroup_spec (h : openGroup crc32c sb device agno = .ok group) : Opened sb group := by
  obtain ⟨agfRaw, hagfRaw, h⟩ := bind_eq_ok.mp h
  obtain ⟨agf, hagf, h'⟩ := bind_eq_ok.mp h
  obtain ⟨rfl, hlength⟩ := agf_parse_spec hagf
  obtain ⟨agflRaw, hagflRaw, h⟩ := bind_eq_ok.mp h'
  obtain ⟨agfl, hagfl, h⟩ := bind_eq_ok.mp h
  obtain ⟨⟨byBlock, bnoBlocks⟩, hbno, h⟩ := bind_eq_ok.mp h
  obtain ⟨_, hruns, h⟩ := bind_eq_ok.mp h
  obtain ⟨⟨byLength, cntBlocks⟩, hcnt, h⟩ := bind_eq_ok.mp h
  obtain ⟨-, -, h⟩ := bind_eq_ok.mp h
  obtain ⟨rmapTree, hrmap, h⟩ := bind_eq_ok.mp h
  obtain ⟨refcountTree, hrefcount, h⟩ := bind_eq_ok.mp h
  obtain ⟨before, -, h⟩ := bind_eq_ok.mp h
  obtain ⟨hok, hcount, -, -, hagfllen, hraw⟩ := Agfl.parse_spec hagfl
  obtain ⟨hrefblocks, hcounted⟩ := openRefcount_spec (beAt_lt _ _ 4) hrefcount
  have hsector := device.length_eq hagflRaw
  rw [← Except.ok.inj h]
  obtain ⟨hrmapblocks, hrmapne⟩ := openRmap_spec (beAt_lt _ _ 4) hrmap
  refine ⟨?_, hagfllen ▸ hlength, hok, hcount, device.length_eq hagfRaw, ?_, ?_, rfl, ?_, rfl,
    List.ne_nil_of_mem (root_mem_walkBlocks hbno), List.ne_nil_of_mem (root_mem_walkBlocks hcnt),
    hrmapne⟩
  · rw [hagfllen]
    exact checkRuns_eq_ok.mp hruns
  · intro b hb
    simp only [GroupAlloc.allBlocks, List.mem_append] at hb
    rcases hb with ((hb | hb) | hb) | hb
    · exact walkBlocks_lt hbno (beAt_lt _ _ 4) b hb
    · exact walkBlocks_lt hcnt (beAt_lt _ _ 4) b hb
    · exact hrmapblocks b hb
    · exact hrefblocks b hb
  · rw [hagfllen]
    exact hcounted
  · rw [hraw, List.take_of_length_le (by omega)]

end

/-! ## An editor after any calls -/

structure Editor (sb : Superblock) (ed : GroupAlloc) : Prop where
  runs : FreeRuns 0 (2 ^ 32 - 1) ed.byBlock
  list : ed.agfl.Ok sb
  raw_length : ed.agfRaw.length = sb.sectsize
  blocks_lt : ∀ b ∈ ed.allBlocks, b < 2 ^ 32
  bounded : ∀ tree ∈ ed.refcount, Bounded tree.1

structure SameGroup (ed ed' : GroupAlloc) : Prop where
  agno : ed'.agno = ed.agno
  raw : ed'.agfRaw = ed.agfRaw
  before : ed'.before = ed.before
  bno : ed'.bnoBlocks = ed.bnoBlocks
  cnt : ed'.cntBlocks = ed.cntBlocks
  rmap : treeBlocks ed'.rmap = treeBlocks ed.rmap
  refcount : treeBlocks ed'.refcount = treeBlocks ed.refcount
  listRaw : ed'.agflRaw = ed.agflRaw
  rmap_some : ed'.rmap.isSome = ed.rmap.isSome
  refcount_some : ed'.refcount.isSome = ed.refcount.isSome

section

variable {sb : Superblock} {ed ed' ed'' group : GroupAlloc} {e : Edit} {n : ℤ} {record : Rmap}

theorem SameGroup.refl (ed : GroupAlloc) : SameGroup ed ed := by
  constructor <;> rfl

theorem SameGroup.trans (h : SameGroup ed ed') (h' : SameGroup ed' ed'') : SameGroup ed ed'' where
  agno := h'.agno.trans h.agno
  raw := h'.raw.trans h.raw
  before := h'.before.trans h.before
  bno := h'.bno.trans h.bno
  cnt := h'.cnt.trans h.cnt
  rmap := h'.rmap.trans h.rmap
  refcount := h'.refcount.trans h.refcount
  listRaw := h'.listRaw.trans h.listRaw
  rmap_some := h'.rmap_some.trans h.rmap_some
  refcount_some := h'.refcount_some.trans h.refcount_some

theorem SameGroup.allBlocks (h : SameGroup ed ed') : ed'.allBlocks = ed.allBlocks := by
  rw [GroupAlloc.allBlocks, GroupAlloc.allBlocks, h.bno, h.cnt, h.rmap, h.refcount]

theorem RmapPut.same {old new : Option (List Rmap × List ℕ)} (h : RmapPut record old new) :
    treeBlocks new = treeBlocks old ∧ new.isSome = old.isSome := by
  cases h with
  | none => exact ⟨rfl, rfl⟩
  | some _ => exact ⟨rfl, rfl⟩

theorem Step.same (h : Step ed e ed' n) : SameGroup ed ed' ∧ ed'.agfl = ed.agfl := by
  cases h with
  | idle => exact ⟨.refl _, rfl⟩
  | took _ _ hput =>
    obtain ⟨hblocks, hsome⟩ := hput.same
    exact ⟨⟨rfl, rfl, rfl, rfl, rfl, hblocks, rfl, rfl, hsome, rfl⟩, rfl⟩
  | gave _ => exact ⟨⟨rfl, rfl, rfl, rfl, rfl, rfl, rfl, rfl, rfl, rfl⟩, rfl⟩
  | forgot hsome _ =>
    exact ⟨⟨rfl, rfl, rfl, rfl, rfl, by rw [hsome]; rfl, rfl, rfl, by rw [hsome]; rfl, rfl⟩, rfl⟩
  | remembered _ hsome _ =>
    exact ⟨⟨rfl, rfl, rfl, rfl, rfl, by rw [hsome]; rfl, rfl, rfl, by rw [hsome]; rfl, rfl⟩, rfl⟩
  | released hsome _ =>
    exact ⟨⟨rfl, rfl, rfl, rfl, rfl, rfl, by rw [hsome]; rfl, rfl, rfl, by rw [hsome]; rfl⟩, rfl⟩

theorem freeRuns_mono {lo lo' hi hi' : ℕ} {free : List FreeExtent} (hlo : lo' ≤ lo) (hhi : hi ≤ hi')
    (h : FreeRuns lo hi free) : FreeRuns lo' hi' free where
  apart := h.apart
  pos := h.pos
  lo_le e he := le_trans hlo (h.lo_le e he)
  le_hi e he := le_trans (h.le_hi e he) hhi

theorem Opened.editor (hsb : sb.agblocks < 2 ^ 32) (h : Opened sb group) : Editor sb group where
  runs := freeRuns_mono (Nat.zero_le _) (by have := h.length_le; omega) h.runs
  list := h.list
  raw_length := h.raw_length
  blocks_lt := h.blocks_lt
  bounded tree ht := by
    have hcounted := h.counted tree ht
    have hle := h.length_le
    have hlen := counted_length hcounted
    refine ⟨fun r hr => ?_, by omega⟩
    have hhi := (hcounted.sound r hr).le_hi
    omega

theorem Editor.step (hed : Editor sb ed) (h : Step ed e ed' n) : Editor sb ed' := by
  obtain ⟨hsame, hagfl⟩ := h.same
  have hblocks : ∀ b ∈ ed'.allBlocks, b < 2 ^ 32 := hsame.allBlocks ▸ hed.blocks_lt
  have hlist : ed'.agfl.Ok sb := hagfl ▸ hed.list
  have hraw : ed'.agfRaw.length = sb.sectsize := hsame.raw ▸ hed.raw_length
  cases h with
  | idle => exact hed
  | took _ halloc _ => exact ⟨hed.runs.alloc halloc, hlist, hraw, hblocks, hed.bounded⟩
  | @gave free run hfree =>
    have hfits := run.fits
    have hend : run.extent.end_ ≤ 2 ^ 32 - 1 := by
      change run.startblock + run.blockcount ≤ _
      omega
    exact ⟨hed.runs.giveBack (by decide) hend hfree (Nat.zero_le _), hlist, hraw, hblocks, hed.bounded⟩
  | forgot _ _ => exact ⟨hed.runs, hlist, hraw, hblocks, hed.bounded⟩
  | remembered _ _ _ => exact ⟨hed.runs, hlist, hraw, hblocks, hed.bounded⟩
  | released hsome hrelease =>
    refine ⟨hed.runs, hlist, hraw, hblocks, fun tree ht => ?_⟩
    rw [← Option.some.inj ht]
    exact bounded_release (hed.bounded _ hsome) hrelease

/-! ## Topping the free list up -/

theorem refillOne_spec (hed : Editor sb ed) (h : ed.refillOne sb = .ok ed') :
    Editor sb ed' ∧ SameGroup ed ed' ∧ ed'.refcount = ed.refcount ∧
      ed'.agfl.length = ed.agfl.length ∧ ∃ b, allocExtent ed.byBlock ⟨b, 1⟩ = .ok ed'.byBlock ∧
        ed'.agfl.entries sb = ed.agfl.entries sb ++ [b] ∧
        RmapPut ⟨b, 1, Rmap.ownAg, 0⟩ ed.rmap ed'.rmap := by
  obtain ⟨first, hfirst, h⟩ := bind_eq_ok.mp h
  obtain ⟨free, halloc, h⟩ := bind_eq_ok.mp h
  obtain ⟨agfl, hput, h⟩ := bind_eq_ok.mp h
  have hmem := List.mem_of_mem_head? (orElse_eq_ok.mp hfirst)
  have hhi := hed.runs.le_hi first hmem
  have hlt : first.startblock < 2 ^ 32 := by
    simp only [FreeExtent.end_] at hhi
    omega
  obtain ⟨hentries, hlist, hlength⟩ := Agfl.put_spec hed.list hlt hput
  have hruns := hed.runs.alloc halloc
  rcases putRmap_spec h with ⟨hnone, rfl⟩ | ⟨records, records', blocks, hsome, hinsert, rfl⟩
  · refine ⟨⟨hruns, hlist, hed.raw_length, hed.blocks_lt, hed.bounded⟩,
      ⟨rfl, rfl, rfl, rfl, rfl, rfl, rfl, rfl, rfl, rfl⟩, rfl, hlength, first.startblock, halloc,
      hentries, ?_⟩
    rw [hnone]
    exact .none
  · have hsame : SameGroup ed { ed with
        byBlock := free, agfl := agfl, rmap := some (records', blocks), took := true } :=
      ⟨rfl, rfl, rfl, rfl, rfl, by rw [hsome]; rfl, rfl, rfl, by rw [hsome]; rfl, rfl⟩
    refine ⟨⟨hruns, hlist, hed.raw_length, hsame.allBlocks ▸ hed.blocks_lt, hed.bounded⟩, hsame, rfl,
      hlength, first.startblock, halloc, hentries, ?_⟩
    rw [hsome]
    exact .some hinsert

theorem refillBy_invariant {P : GroupAlloc → Prop} {turns : ℕ}
    (hturn : ∀ ed ed', Editor sb ed → P ed → ed.refillOne sb = .ok ed' → P ed')
    (hed : Editor sb ed) (hP : P ed) (h : GroupAlloc.refillBy sb turns ed = .ok ed') :
    Editor sb ed' ∧ P ed' := by
  induction turns generalizing ed with
  | zero =>
    rw [← Except.ok.inj h]
    exact ⟨hed, hP⟩
  | succ turns ih =>
    obtain ⟨mid, hone, h⟩ := bind_eq_ok.mp h
    exact ih (refillOne_spec hed hone).1 (hturn ed mid hed hP hone) h

end

/-! ## Laying the trees out again -/

/-- Blocks moved between a tree and the free list. -/
def Moved (held list held' list' : List ℕ) : Prop :=
  (∃ taken, held' = held ++ taken ∧ list = taken ++ list') ∨
    ∃ spare, held = held' ++ spare ∧ list' = list ++ spare.reverse

theorem Moved.perm {held list held' list' : List ℕ} (h : Moved held list held' list') :
    (held' ++ list').Perm (held ++ list) := by
  rcases h with ⟨taken, rfl, rfl⟩ | ⟨spare, rfl, rfl⟩
  · rw [List.append_assoc]
  · rw [List.append_assoc]
    refine List.Perm.append_left _ ?_
    exact List.perm_append_comm.trans ((List.reverse_perm spare).append_right _)

section

variable {crc32c : List UInt8 → ℕ} {sb : Superblock} {device : BlockRead} {ed : GroupAlloc}
  {agfl agfl' : Agfl} {T : Type} {codec : Codec T} {tree : Option (List T × List ℕ)}
  {blocks : List ℕ} {items : List BufferItem}

theorem relayTree_spec (hok : agfl.Ok sb) (hheld : ∀ b ∈ treeBlocks tree, b < 2 ^ 32)
    (h : ed.relayTree crc32c sb device codec agfl tree = .ok (blocks, agfl', items)) :
    agfl'.Ok sb ∧ agfl'.length = agfl.length ∧
      Moved (treeBlocks tree) (agfl.entries sb) blocks (agfl'.entries sb) ∧
      (tree = none → blocks = []) ∧ ∀ t ∈ tree, blocks ≠ [] ∧
        ∃ levels, plan sb codec.shape t.1.length = .ok levels ∧ blocks.length = levels.sum := by
  unfold GroupAlloc.relayTree at h
  split at h
  next =>
    obtain ⟨rfl, hrest⟩ := Prod.mk.inj (Except.ok.inj h)
    obtain ⟨rfl, -⟩ := Prod.mk.inj hrest
    exact ⟨hok, rfl, .inl ⟨[], rfl, rfl⟩, fun _ => rfl, by simp⟩
  next records held =>
    obtain ⟨levels, hplan, h⟩ := bind_eq_ok.mp h
    obtain ⟨⟨fitted, mid⟩, hrefit, h⟩ := bind_eq_ok.mp h
    obtain ⟨built, -, h⟩ := bind_eq_ok.mp h
    obtain ⟨changed, -, h⟩ := bind_eq_ok.mp h
    obtain ⟨rfl, hrest⟩ := Prod.mk.inj (Except.ok.inj h)
    obtain ⟨rfl, -⟩ := Prod.mk.inj hrest
    obtain ⟨hwanted, hok', hlength, hmoved⟩ := refit_spec hok hheld hrefit
    have hpos := plan_sum_pos hplan
    refine ⟨hok', hlength, ?_, by simp, fun t ht => ?_⟩
    · rcases hmoved with ⟨taken, hfitted, htaken, -⟩ | hspare
      · exact .inl ⟨taken, hfitted, htaken⟩
      · exact .inr hspare
    · rw [← Option.some.inj ht]
      exact ⟨List.length_pos_iff.mp (by omega), levels, hplan, hwanted⟩

def Laid {T : Type} (sb : Superblock) (shape : Shape) (tree : Option (List T × List ℕ))
    (blocks : List ℕ) : Prop :=
  (tree = none → blocks = []) ∧ ∀ t ∈ tree, blocks ≠ [] ∧
    ∃ levels, plan sb shape t.1.length = .ok levels ∧ blocks.length = levels.sum

/-- The blocks the trees and the free list have between them afterwards are those they had. -/
structure RelaidFrom (sb : Superblock) (ed : GroupAlloc) (relaid : Relaid) : Prop where
  list : relaid.agfl.Ok sb
  length_eq : relaid.agfl.length = ed.agfl.length
  moved : ∃ list, (relaid.bnoBlocks ++ relaid.cntBlocks ++ relaid.rmapBlocks ++ list).Perm
      (ed.bnoBlocks ++ ed.cntBlocks ++ treeBlocks ed.rmap ++ ed.agfl.entries sb) ∧
    Moved (treeBlocks ed.refcount) list relaid.refcountBlocks (relaid.agfl.entries sb)
  bno : Laid sb (Order.shape .byBlock) (some (ed.byBlock, ed.bnoBlocks)) relaid.bnoBlocks
  cnt : Laid sb (Order.shape .byCount)
    (some (ed.byCount, ed.cntBlocks)) relaid.cntBlocks
  rmap : Laid sb rmapShape ed.rmap relaid.rmapBlocks
  refcount : Laid sb refcountShape ed.refcount relaid.refcountBlocks

theorem treeBlocks_lt (hed : Editor sb ed) :
    (∀ b ∈ treeBlocks (some (ed.byBlock, ed.bnoBlocks)), b < 2 ^ 32) ∧
      (∀ b ∈ treeBlocks (some (ed.byCount, ed.cntBlocks)), b < 2 ^ 32) ∧
      (∀ b ∈ treeBlocks ed.rmap, b < 2 ^ 32) ∧ ∀ b ∈ treeBlocks ed.refcount, b < 2 ^ 32 := by
  have hlt := hed.blocks_lt
  simp only [GroupAlloc.allBlocks, List.mem_append] at hlt
  exact ⟨fun b hb => hlt b (.inl (.inl (.inl hb))), fun b hb => hlt b (.inl (.inl (.inr hb))),
    fun b hb => hlt b (.inl (.inr hb)), fun b hb => hlt b (.inr hb)⟩

theorem relayAll_spec {relaid : Relaid} (hed : Editor sb ed)
    (h : relayAll crc32c sb device ed = .ok relaid) : RelaidFrom sb ed relaid := by
  obtain ⟨hbnolt, hcntlt, hrmaplt, hrefclt⟩ := treeBlocks_lt hed
  obtain ⟨⟨bnoBlocks, agfl₁, bnoItems⟩, hbno, h⟩ := bind_eq_ok.mp h
  obtain ⟨⟨cntBlocks, agfl₂, cntItems⟩, hcnt, h⟩ := bind_eq_ok.mp h
  obtain ⟨⟨rmapBlocks, agfl₃, rmapItems⟩, hrmap, h⟩ := bind_eq_ok.mp h
  obtain ⟨⟨refcountBlocks, agfl₄, refcountItems⟩, hrefcount, h⟩ := bind_eq_ok.mp h
  rw [← Except.ok.inj h]
  obtain ⟨hok₁, hlen₁, hmoved₁, hlaid₁⟩ := relayTree_spec hed.list hbnolt hbno
  obtain ⟨hok₂, hlen₂, hmoved₂, hlaid₂⟩ := relayTree_spec hok₁ hcntlt hcnt
  obtain ⟨hok₃, hlen₃, hmoved₃, hlaid₃⟩ := relayTree_spec hok₂ hrmaplt hrmap
  obtain ⟨hok₄, hlen₄, hmoved₄, hlaid₄⟩ := relayTree_spec hok₃ hrefclt hrefcount
  refine ⟨hok₄, by rw [hlen₄, hlen₃, hlen₂, hlen₁], ⟨agfl₃.entries sb, ?_, hmoved₄⟩, hlaid₁, hlaid₂,
    hlaid₃, hlaid₄⟩
  refine List.perm_iff_count.mpr fun b => ?_
  have hfirst := hmoved₁.perm.count_eq b
  have hsecond := hmoved₂.perm.count_eq b
  have hthird := hmoved₃.perm.count_eq b
  simp only [treeBlocks, Option.elim_some, List.count_append] at hfirst hsecond hthird ⊢
  omega

end

/-! ## The header -/

section

variable {writes : List (ℕ × ℕ)} {buf : List UInt8} {n off v : ℕ}

theorem putWords_eq (writes : List (ℕ × ℕ)) (buf : List UInt8) :
    putWords writes buf = putAll buf (writes.map fun w => (w.1, beBytes 4 w.2)) := by
  rw [putWords, putAll, List.foldl_map]

theorem spans_words : spans (writes.map fun w => (w.1, beBytes 4 w.2)) = writes.map fun w => (w.1, 4) := by
  simp [spans]

section

variable (hbuf : buf.length = n) (hfit : ∀ w ∈ writes, w.1 + 4 ≤ n)

include hbuf hfit

theorem words_in : ∀ f ∈ writes.map fun w => (w.1, beBytes 4 w.2), f.1 + f.2.length ≤ buf.length := by
  intro f hf
  obtain ⟨w, hw, rfl⟩ := List.mem_map.mp hf
  rw [beBytes_length, hbuf]
  exact hfit w hw

theorem slice_putWords {len : ℕ} (hapart : ∀ w ∈ writes, off + len ≤ w.1 ∨ w.1 + 4 ≤ off) :
    slice (putWords writes buf) off len = slice buf off len := by
  rw [putWords_eq]
  refine slice_putAll_of_apart (words_in hbuf hfit) fun r hr => ?_
  rw [spans_words] at hr
  obtain ⟨w, hw, rfl⟩ := List.mem_map.mp hr
  exact hapart w hw

theorem beAt_putWords (hapart : writes.Pairwise fun a b => a.1 + 4 ≤ b.1 ∨ b.1 + 4 ≤ a.1)
    (hmem : (off, v) ∈ writes) (hv : v < 2 ^ 32) : beAt (putWords writes buf) off 4 = v := by
  rw [putWords_eq, beAt]
  refine beValue_putAll (words_in hbuf hfit) ?_ (List.mem_map_of_mem hmem) hv
  rw [spans_words, List.pairwise_map]
  exact hapart

end

end

structure TreeFields (sb : Superblock) (shape : Shape) (blocks : List ℕ) (records rootAt levelAt : ℕ)
    (fields : List (ℕ × ℕ)) (root : ℕ) (levels : List ℕ) : Prop where
  root_eq : blocks.getLast? = some root
  plan_eq : plan sb shape records = .ok levels
  sum_eq : levels.sum = blocks.length
  root_mem : (rootAt, root) ∈ fields
  level_mem : (levelAt, levels.length) ∈ fields

structure FieldsOf (sb : Superblock) (ed : GroupAlloc) (relaid : Relaid) (fields : List (ℕ × ℕ)) :
    Prop where
  fit : ∀ w ∈ fields, 16 ≤ w.1 ∧ w.1 + 4 ≤ 96 ∧ (w.1 + 4 ≤ 64 ∨ 80 ≤ w.1) ∧ w.1 % 4 = 0
  apart : fields.Pairwise fun a b => a.1 + 4 ≤ b.1 ∨ b.1 + 4 ≤ a.1
  freeblks : (agfFreeblks, totalFree ed.byBlock) ∈ fields ∧ totalFree ed.byBlock < 2 ^ 32
  longest : (agfLongest, longest ed.byBlock) ∈ fields
  btreeblks : (agfBtreeblks, relaid.btreeblks) ∈ fields ∧ relaid.btreeblks < 2 ^ 32
  list : (agfFlfirst, relaid.agfl.first) ∈ fields ∧ (agfFllast, relaid.agfl.last) ∈ fields ∧
    (agfFlcount, relaid.agfl.count) ∈ fields
  bno : ∃ root levels, TreeFields sb (Order.shape .byBlock) relaid.bnoBlocks ed.byBlock.length
    (agfRoots + 4 * bno) (agfLevels + 4 * bno) fields root levels
  cnt : ∃ root levels, TreeFields sb (Order.shape .byCount) relaid.cntBlocks ed.byBlock.length
    (agfRoots + 4 * cnt) (agfLevels + 4 * cnt) fields root levels
  rmap : (relaid.rmapBlocks = [] ∧ ∀ w ∈ fields, w.1 ≠ agfRoots + 4 * rmap ∧
      w.1 ≠ agfLevels + 4 * rmap) ∨
    ∃ root levels, TreeFields sb rmapShape relaid.rmapBlocks
      (ed.rmap.elim 0 fun tree => tree.1.length) (agfRoots + 4 * rmap) (agfLevels + 4 * rmap) fields
      root levels
  refcount : (relaid.refcountBlocks = [] ∧ ∀ w ∈ fields, w.1 ≠ agfRefcountRoot ∧
      w.1 ≠ agfRefcountLevel ∧ w.1 ≠ agfRefcountBlocks) ∨
    (agfRefcountBlocks, relaid.refcountBlocks.length) ∈ fields ∧
      ∃ root levels, TreeFields sb refcountShape relaid.refcountBlocks
        (ed.refcount.elim 0 fun tree => tree.1.length) agfRefcountRoot agfRefcountLevel fields root
        levels

section

variable {sb : Superblock} {ed : GroupAlloc} {relaid : Relaid} {fields : List (ℕ × ℕ)}

theorem fitsU32_spec {n m : ℕ} {e : Error} (h : fitsU32 n e = .ok m) : m = n ∧ n < 2 ^ 32 := by
  simp only [fitsU32, bind_eq_ok, ensure_eq_ok, pure, Except.pure, Except.ok.injEq, exists_const] at h
  exact ⟨h.2.symm, h.1⟩

theorem levelOf_spec {shape : Shape} {blocks : List ℕ} {records level : ℕ}
    (h : levelOf sb shape blocks records = .ok level) :
    ∃ levels, plan sb shape records = .ok levels ∧ levels.sum = blocks.length ∧
      level = levels.length := by
  simp only [levelOf, bind_eq_ok, ensure_eq_ok, pure, Except.pure, Except.ok.injEq, exists_const] at h
  obtain ⟨levels, hplan, hsum, rfl⟩ := h
  exact ⟨levels, hplan, hsum, rfl⟩

/-- What `rmap_fields` and `refcount_fields` give, each for its own tree. -/
theorem treeFields_spec {shape : Shape} {blocks : List ℕ} {records : ℕ}
    {fieldsOf : ℕ → ℕ → List (ℕ × ℕ)}
    (h : (if blocks = [] then .ok [] else do
      let root ← rootOf blocks
      let level ← levelOf sb shape blocks records
      pure (fieldsOf root level)) = Except.ok fields) :
    (blocks = [] ∧ fields = []) ∨ ∃ root levels, blocks.getLast? = some root ∧
      plan sb shape records = .ok levels ∧ levels.sum = blocks.length ∧
      fields = fieldsOf root levels.length := by
  split at h
  next hnil => exact .inl ⟨hnil, (Except.ok.inj h).symm⟩
  next =>
    obtain ⟨root, hroot, h⟩ := bind_eq_ok.mp h
    obtain ⟨level, hlevel, h⟩ := bind_eq_ok.mp h
    obtain ⟨levels, hplan, hsum, rfl⟩ := levelOf_spec hlevel
    exact .inr ⟨root, levels, orElse_eq_ok.mp hroot, hplan, hsum, (Except.ok.inj h).symm⟩

theorem headerFields_spec (h : headerFields sb ed relaid = .ok fields) :
    FieldsOf sb ed relaid fields := by
  obtain ⟨freeblks, hfree, h⟩ := bind_eq_ok.mp h
  obtain ⟨bnoLevel, hbno, h⟩ := bind_eq_ok.mp h
  obtain ⟨cntLevel, hcnt, h⟩ := bind_eq_ok.mp h
  obtain ⟨bnoRoot, hbnoroot, h⟩ := bind_eq_ok.mp h
  obtain ⟨cntRoot, hcntroot, h⟩ := bind_eq_ok.mp h
  obtain ⟨rmapWrites, hrmap, h⟩ := bind_eq_ok.mp h
  obtain ⟨refcountWrites, hrefcount, h⟩ := bind_eq_ok.mp h
  obtain ⟨btreeblks, hbtree, h⟩ := bind_eq_ok.mp h
  have hfields := (Except.ok.inj h).symm
  obtain ⟨rfl, hfreelt⟩ := fitsU32_spec hfree
  obtain ⟨rfl, hbtreelt⟩ := fitsU32_spec hbtree
  obtain ⟨bnoLevels, hbnoplan, hbnosum, rfl⟩ := levelOf_spec hbno
  obtain ⟨cntLevels, hcntplan, hcntsum, rfl⟩ := levelOf_spec hcnt
  have hrmapW := treeFields_spec hrmap
  have hrefcountW := treeFields_spec hrefcount
  have hshape : (rmapWrites.map Prod.fst = [] ∨ rmapWrites.map Prod.fst = [24, 36, 80]) ∧
      (refcountWrites.map Prod.fst = [] ∨ refcountWrites.map Prod.fst = [88, 92, 84]) := by
    constructor
    · rcases hrmapW with ⟨-, rfl⟩ | ⟨root, levels, -, -, -, rfl⟩
      · exact .inl rfl
      · exact .inr rfl
    · rcases hrefcountW with ⟨-, rfl⟩ | ⟨root, levels, -, -, -, rfl⟩
      · exact .inl rfl
      · exact .inr rfl
  have hoffsets : fields.map Prod.fst = [52, 56, 16, 20, 28, 32] ++ rmapWrites.map Prod.fst ++
      refcountWrites.map Prod.fst ++ [60, 40, 44, 48] := by
    rw [hfields]
    simp only [List.map_append, List.map_cons, List.map_nil]
    rfl
  have hin : ∀ w ∈ fields, w.1 ∈ fields.map Prod.fst := fun w hw => List.mem_map_of_mem hw
  refine ⟨fun w hw => ?_, ?_, ⟨by simp [hfields], hfreelt⟩, by simp [hfields],
    ⟨by simp [hfields], hbtreelt⟩, by simp [hfields],
    ⟨bnoRoot, bnoLevels, orElse_eq_ok.mp hbnoroot, hbnoplan, hbnosum, by simp [hfields],
      by simp [hfields]⟩,
    ⟨cntRoot, cntLevels, orElse_eq_ok.mp hcntroot, hcntplan, hcntsum, by simp [hfields],
      by simp [hfields]⟩, ?_, ?_⟩
  · have hw' := hin w hw
    rw [hoffsets] at hw'
    obtain ⟨hr | hr, hc | hc⟩ := hshape
    all_goals
      rw [hr, hc] at hw'
      revert hw'
      generalize w.1 = off
      revert off
      decide
  · have hpair : (fields.map Prod.fst).Pairwise fun a b => a + 4 ≤ b ∨ b + 4 ≤ a := by
      rw [hoffsets]
      obtain ⟨hr | hr, hc | hc⟩ := hshape
      all_goals
        rw [hr, hc]
        decide
    exact List.pairwise_map.mp hpair
  · rcases hrmapW with ⟨hnil, rfl⟩ | ⟨root, levels, hroot, hplan, hsum, rfl⟩
    · refine .inl ⟨hnil, fun w hw => ?_⟩
      have hw' := hin w hw
      rw [hoffsets] at hw'
      rcases hshape.2 with hc | hc
      all_goals
        rw [hc] at hw'
        revert hw'
        generalize w.1 = off
        revert off
        decide
    · exact .inr ⟨root, levels, hroot, hplan, hsum, by simp [hfields], by simp [hfields]⟩
  · rcases hrefcountW with ⟨hnil, rfl⟩ | ⟨root, levels, hroot, hplan, hsum, rfl⟩
    · refine .inl ⟨hnil, fun w hw => ?_⟩
      have hw' := hin w hw
      rw [hoffsets] at hw'
      rcases hshape.1 with hr | hr
      all_goals
        rw [hr] at hw'
        revert hw'
        generalize w.1 = off
        revert off
        decide
    · exact .inr ⟨by simp [hfields], root, levels, hroot, hplan, hsum, by simp [hfields],
        by simp [hfields]⟩

end

/-! ## The items -/

section

variable {crc32c : List UInt8 → ℕ} {sb : Superblock} {device : BlockRead} {ed : GroupAlloc}

theorem finish_spec {out : Finished} (h : finish crc32c sb device ed = .ok out) :
    ed.refillFreeList sb = .ok out.ed ∧ relayAll crc32c sb device out.ed = .ok out.relaid ∧
      (∃ fields, headerFields sb out.ed out.relaid = .ok fields ∧
        out.header = putWords fields out.ed.agfRaw) ∧
      ∃ agfItem rest, out.items = agfItem :: out.relaid.items ++ rest ∧
        changedChunks (agStart sb out.ed.agno / 512 + sb.sectsize / 512) out.ed.agfRaw out.header
          blftAgf = .ok agfItem ∧
        ((out.relaid.agfl.after crc32c sb = out.ed.agflRaw ∧ rest = []) ∨
          ∃ item, rest = [item] ∧
            changedChunks (agStart sb out.ed.agno / 512 + sb.sectsize * 3 / 512) out.ed.agflRaw
              (out.relaid.agfl.after crc32c sb) blftAgfl = .ok item) := by
  obtain ⟨refilled, hrefill, h⟩ := bind_eq_ok.mp h
  obtain ⟨relaid, hrelay, h⟩ := bind_eq_ok.mp h
  obtain ⟨header, hheader, h⟩ := bind_eq_ok.mp h
  obtain ⟨agfItem, hagf, h⟩ := bind_eq_ok.mp h
  obtain ⟨rest, hrest, h⟩ := bind_eq_ok.mp h
  obtain ⟨fields, hfields, hheader⟩ := bind_eq_ok.mp hheader
  rw [← Except.ok.inj h]
  refine ⟨hrefill, hrelay, ⟨fields, hfields, (Except.ok.inj hheader).symm⟩, agfItem, rest, rfl, hagf,
    ?_⟩
  unfold listItems at hrest
  split at hrest
  next hsame => exact .inl ⟨hsame, (Except.ok.inj hrest).symm⟩
  next =>
    obtain ⟨item, hitem, hrest⟩ := bind_eq_ok.mp hrest
    exact .inr ⟨item, (Except.ok.inj hrest).symm, hitem⟩

end

end FsXfs.Group
