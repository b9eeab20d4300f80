import FsXfs.Logbook
import FsXfs.Log.Buffers

/-!
# Commits that go through

A commit on a device that fails nothing, with room before the end of the ring, and a volume on which
one whole block after another is logged, each at a place of its own. The runs that show where a
result about every run ends are made of these.
-/

namespace FsXfs.Mount

open Log Redo StateProg Bytes

set_option autoImplicit false

variable {m m₁ : Mount}

/-! ## Straight commits -/

variable {p : Plan} {n i : ℕ}

theorem entered_straight (h : p.wraps = false) : m.entered p = m := by
  rw [entered, h, if_neg Bool.false_ne_true]

theorem chosenHead_straight (h : p.wraps = false) : chosenHead p = p.head := by
  rw [chosenHead, h, if_neg Bool.false_ne_true]

structure Straight (m : Mount) (p : Plan) : Prop where
  reliable : m.Reliable
  writeFailed : m.writeFailed = false
  writable : m.writable = true
  wraps : p.wraps = false
  fits : p.needed ≤ p.head.freeBlocks
  aligned : m.Aligned p.head

theorem commitRecord_straight {build : ℕ → List Op} (h : Straight m p)
    (hplan : m.plan build = .ok p) :
    commitRecord build m = .ok (((m.recordsOf p).map LogRecord.lsn).getLastD 0)
      (if maxDirtyBytes ≤ m.overlay.bytes then (m.logged p).settle else m.logged p) := by
  have hentered := @entered_straight m p h.wraps
  have hchosen := chosenHead_straight h.wraps
  cases hres : commitRecord build m with
  | ok lsn m' =>
    obtain ⟨p', hplan', -, -, -, -, -, rfl, rfl⟩ := commitRecord_eq_ok hres
    cases hplan.symm.trans hplan'
    rw [hentered]
  | error e m' =>
    exfalso
    rcases commitRecord_eq_error hres with ⟨-, hno | ⟨-, hno | hno⟩⟩ | ⟨p', hplan', -, -, hlater⟩
    · cases hplan.symm.trans hno
    · exact absurd (h.writeFailed.symm.trans hno) Bool.false_ne_true
    · exact absurd (hno.symm.trans h.writable) Bool.false_ne_true
    · cases hplan.symm.trans hplan'
      rcases hlater with ⟨hwraps, -⟩ | ⟨-, hstop⟩
      · exact absurd (h.wraps.symm.trans hwraps) Bool.false_ne_true
      · cases hstop with
        | tooLarge hlarge =>
          rw [hchosen] at hlarge
          exact absurd h.fits (Nat.not_le.mpr hlarge)
        | offStripe hmis =>
          rw [hentered, hchosen] at hmis
          exact hmis h.aligned
        | record _ hio => exact hio.2 h.reliable
        | push _ _ hio => exact hio.2 h.reliable

def afterPut (m : Mount) (lsn : ℕ) (items : List Item) : Mount :=
  (m.loggedItems items).emit [.returned lsn items]

theorem afterPut_eq (m : Mount) (lsn : ℕ) (items : List Item) :
    m.afterPut lsn items = { m with
      overlay := (m.loggedItems items).overlay
      trace := m.trace ++ [.returned lsn items] } := by
  rw [afterPut, loggedItems_eq items m]
  rfl

theorem disk_afterPut (m : Mount) (lsn : ℕ) (items : List Item) :
    (m.afterPut lsn items).disk = m.disk := by
  rw [afterPut_eq]
  exact List.foldl_append

/-! ## One block after another -/

def bigLog : Superblock :=
  { twoGroups with
    blocksize := 4096, blocklog := 12, inopblock := 8, inopblog := 3, dblocks := 32768,
    agblocks := 16384, agblklog := 14, logblocks := 6000 }

def bigLogVolume : Mount :=
  fresh bigLog .blank fun _ => 0

@[irreducible] def ones : List UInt8 :=
  List.replicate 4096 1

theorem ones_length : ones.length = 4096 := by
  rw [ones, List.length_replicate]

theorem chunkPatch_ones {at_ a : ℕ} {b : UInt8} (h : chunkPatch at_ ones a = some b) : b = 1 := by
  unfold chunkPatch at h
  split at h
  · next hin =>
    rw [ones_length] at hin
    have hlt : a - at_ < 4096 := by omega
    rw [ones, List.getD_eq_getElem?_getD, List.getElem?_replicate_of_lt hlt] at h
    exact (Option.some.inj h).symm
  · cases h

def place (i : ℕ) : ℕ :=
  8 * (20480 + i)

def bufferAt (i : ℕ) : Item :=
  ⟨place i % 256 ^ 8, 8, false, place i % 256 ^ 8, 4096, [(0, ones)]⟩

theorem isPlain_whole (tid i : ℕ) :
    ∀ op ∈ (⟨0, transHeader tid xfsTransCheckpoint 2⟩ :: (wholeBuffer (place i) ones).ops : List Op),
      op.isPlain = true := by
  intro op hop
  rw [wholeBuffer_ops _ ones_length] at hop
  simp only [List.mem_cons, List.not_mem_nil, or_false] at hop
  rcases hop with rfl | rfl | rfl <;>
    simp [Op.isPlain, Op.isStart, Op.isCommit, Op.isUnmount]

theorem regions_whole (tid i : ℕ) :
    regions (⟨0, transHeader tid xfsTransCheckpoint 2⟩ :: (wholeBuffer (place i) ones).ops) =
      (wholeBuffer (place i) ones).ops.map Op.data := by
  have hempty : ones.isEmpty = false := by
    rw [List.isEmpty_eq_false_iff, ← List.length_pos_iff, ones_length]
    decide
  have hformat := wholeBuffer_formatOp (place i) ones_length
  have hfirst : isTransHeader ⟨0, (wholeBuffer (place i) ones).formatOp⟩ = false := by
    rw [hformat]
    rfl
  have hne : (wholeBuffer (place i) ones).formatOp.isEmpty = false := by
    rfl
  have hheader : (transHeader tid xfsTransCheckpoint 2).isEmpty = false := rfl
  rw [wholeBuffer_ops _ ones_length]
  simp only [regions, List.filter_cons, hheader, hne, hempty, Bool.not_false, if_true,
    List.filter_nil, List.dropWhile_cons, isTransHeader_transHeader, hfirst, Bool.false_eq_true,
    if_false]

theorem itemsOf_whole (tid i : ℕ) :
    itemsOf decodeBuffers
      (⟨0, transHeader tid xfsTransCheckpoint 2⟩ :: (wholeBuffer (place i) ones).ops) =
      [bufferAt i] := by
  have hdecode := decodeBuffers_whole (place i) ones_length
  rw [itemsOf, regions_whole]
  exact hdecode

def bufferCheckpoint (i : ℕ) : Checkpoint decodeBuffers where
  body tid := ⟨0, transHeader tid xfsTransCheckpoint 2⟩ :: (wholeBuffer (place i) ones).ops
  items := [bufferAt i]
  plain tid := isPlain_whole tid i
  decoded tid := itemsOf_whole tid i

theorem inside_bufferAt (i : ℕ) : ∀ item ∈ (bufferCheckpoint i).items, item.Inside := by
  intro item hitem c hc
  rw [List.mem_singleton.mp hitem] at hc ⊢
  rw [List.mem_singleton.mp hc]
  exact (Nat.zero_add _).trans_le ones_length.le

theorem bufferCheckpoint_cost (tid i : ℕ) : (((bufferCheckpoint i).build tid).map opCost).sum = 4196 := by
  have hformat : (wholeBuffer (place i) ones).formatOp.length = 24 := by
    rfl
  have hheader : (transHeader tid xfsTransCheckpoint 2).length = 16 := rfl
  change ((transactionOps (_ :: (wholeBuffer (place i) ones).ops)).map opCost).sum = _
  rw [wholeBuffer_ops _ ones_length]
  simp [transactionOps, opCost, opHeaderSize, startOp, commitOp, hformat, hheader, ones_length]

theorem plan_one_record {head : Head} {c : Checkpoint decodeBuffers} {cost : ℕ}
    (hfind : m.findHead = .ok head) (hsize : head.iclogSize = 32768) (hunit : m.sb.logsunit = 0)
    (hcost : ((c.build (transactionId head)).map opCost).sum = cost) (hle : cost ≤ 32256) :
    m.plan c.build = .ok ⟨head, transactionId head, [c.build (transactionId head)],
      [1 + divCeil cost 512]⟩ := by
  subst hcost
  have hcap : maxPayload 32768 = .ok 32256 := by decide
  have hsplit := splitIntoRecords_fits hcap hle
    (show c.build (transactionId head) ≠ [] by simp [Checkpoint.build, transactionOps])
  have hblocks := @recordBlocksForLog_fits _ _ _ (transactionId head) hcap hle
    (by unfold divCeil; omega)
  rw [plan, hfind]
  simp only [hsize, hunit, hsplit, List.mapM_cons, List.mapM_nil, hblocks, bind, Except.bind, pure,
    Except.pure]
  rw [ensure, if_pos]
  rw [List.sum_singleton]
  unfold divCeil
  omega

theorem bigLogVolume_clean : Clean bigLogVolume where
  trace := rfl
  overlay := rfl
  oldestRecord := rfl
  nextHead := rfl
  placed := by
    intro b r k hb
    cases hb
  log := by
    change inspect Disk.blank.ring (totalBlocks bigLog) ≠ .needsReplay
    rw [inspect, scanWholeRing_blank]
    decide

structure Running (n : ℕ) (m : Mount) : Prop where
  sb : m.sb = bigLog
  base : m.base = .blank
  reliable : m.Reliable
  writeFailed : m.writeFailed = false
  writable : m.writable = true
  head : ∃ prev, m.findHead = .ok ⟨10 * n, 1, prev, 48000 - 10 * n, 32768⟩

theorem bigLogVolume_running : Running 0 bigLogVolume where
  sb := rfl
  base := rfl
  reliable := ⟨fun _ => rfl, fun _ => rfl⟩
  writeFailed := rfl
  writable := rfl
  head := by
    refine ⟨2 ^ 32 - 1, ?_⟩
    have hext : extent bigLog = .ok 24576000 := by decide
    change Log.head bigLog Disk.blank.ring = _
    rw [Log.head, hext]
    simp only [bind, Except.bind, scanWholeRing_blank]
    decide

theorem Running.one_record (h : Running n m) (hn : n ≤ 4700) {c : Checkpoint decodeBuffers} {cost : ℕ}
    (hcost : ∀ tid, ((c.build tid).map opCost).sum = cost) (hle : cost ≤ 4608) :
    ∃ p prev, m.plan c.build = .ok p ∧ Straight m p ∧
      p = ⟨⟨10 * n, 1, prev, 48000 - 10 * n, 32768⟩, p.tid, [c.build p.tid], [1 + divCeil cost 512]⟩ := by
  obtain ⟨prev, hhead⟩ := h.head
  have hunit : m.sb.logsunit = 0 := by rw [h.sb]; rfl
  have hblocks : 1 + divCeil cost 512 ≤ 10 := by
    unfold divCeil
    omega
  refine ⟨_, prev, plan_one_record hhead rfl hunit (hcost _) (by omega),
    ⟨h.reliable, h.writeFailed, h.writable, ?_, ?_, ?_⟩, rfl⟩
  · change wrapsFirst (1 + divCeil cost 512) (48000 - 10 * n) _ = false
    rw [wrapsFirst, padBlocks_eq]
    simp only [Bool.or_eq_false_iff, decide_eq_false_iff_not, Bool.and_eq_false_iff]
    omega
  · change 1 + divCeil cost 512 ≤ 48000 - 10 * n
    omega
  · rw [Aligned, hunit]
    exact Nat.mod_one _

theorem Running.straight (h : Running n m) (hn : n ≤ 4700) (i : ℕ) :
    ∃ p, m.plan (bufferCheckpoint i).build = .ok p ∧ Straight m p ∧
      headAfter p.parts p.head = ⟨10 * (n + 1), 1, 10 * n, 48000 - 10 * (n + 1), 32768⟩ := by
  obtain ⟨p, prev, hplan, hstraight, hp⟩ :=
    h.one_record hn (fun tid => bufferCheckpoint_cost tid i) (by decide)
  refine ⟨p, hplan, hstraight, ?_⟩
  rw [hp]
  change Head.mk _ _ _ _ _ = _
  congr 1

theorem Running.next {lsn : ℕ} (h : Running n m) (hwraps : p.wraps = false)
    (hafter : headAfter p.parts p.head = ⟨10 * (n + 1), 1, 10 * n, 48000 - 10 * (n + 1), 32768⟩)
    {items : List Item}
    (hm₁ : m₁ = (m.logged p).settle.afterPut lsn items ∨ m₁ = (m.logged p).afterPut lsn items) :
    Running (n + 1) m₁ := by
  have hfields : m₁.sb = (m.entered p).sb ∧ m₁.base = (m.entered p).base ∧
      m₁.outcome = (m.entered p).outcome ∧ m₁.flushes = (m.entered p).flushes ∧
      m₁.writeFailed = (m.entered p).writeFailed ∧ m₁.writable = (m.entered p).writable ∧
      m₁.nextHead = some (headAfter p.parts (chosenHead p)) := by
    rcases hm₁ with rfl | rfl <;> rw [afterPut_eq] <;> exact ⟨rfl, rfl, rfl, rfl, rfl, rfl, rfl⟩
  rw [entered_straight hwraps, chosenHead_straight hwraps, hafter] at hfields
  obtain ⟨hsb, hbase, hout, hflush, hfail, hwr, hnext⟩ := hfields
  refine ⟨hsb.trans h.sb, hbase.trans h.base, ?_, hfail.trans h.writeFailed,
    hwr.trans h.writable, 10 * n, ?_⟩
  · rw [Reliable, hout, hflush]
    exact h.reliable
  · rw [findHead, hnext]

theorem place_mod (h : i ≤ 4700) : place i % 256 ^ 8 = place i := by
  apply Nat.mod_eq_of_lt
  unfold place
  omega

theorem image_length (i : ℕ) (view : ℕ → UInt8) : ((bufferAt i).image view).length = 4096 := by
  rw [Item.image, List.length_map, List.length_range]
  rfl

theorem overlay_afterPut (m : Mount) (lsn : ℕ) (h : i ≤ 4700) :
    (m.afterPut lsn [bufferAt i]).overlay =
      m.overlay.wrote m.disk.home (place i) ((bufferAt i).image m.view) := by
  change m.overlay.wrote m.disk.home (place i % 256 ^ 8) _ = _
  rw [place_mod h]

theorem bytes_afterPut_of_empty (h : m.overlay = .empty) (lsn : ℕ) (hi : i ≤ 4700) :
    (m.afterPut lsn [bufferAt i]).overlay.bytes = 4096 := by
  have hfree : ∀ b, ¬m.overlay.Held b := by
    intro b
    rw [h]
    exact AList.notMem_empty b
  rw [overlay_afterPut m lsn hi, Overlay.bytes_wrote _ _ (fun b _ _ => hfree b), image_length, h]
  rfl

/-! ## A pile of blocks -/

structure Piled (n : ℕ) (m : Mount) : Prop where
  running : Running n m
  held : ∀ b, m.overlay.Held b ↔ place 0 ≤ b ∧ b < place n
  bytes : m.overlay.bytes = 4096 * n

theorem bigLogVolume_piled : Piled 0 bigLogVolume where
  running := bigLogVolume_running
  held := by
    intro b
    have hnot : ¬bigLogVolume.overlay.Held b := AList.notMem_empty b
    have hrange : ¬(place 0 ≤ b ∧ b < place 0) := by omega
    exact iff_of_false hnot hrange
  bytes := rfl

theorem Piled.put (h : Piled n m) (hn : n < 4096) :
    ∃ p lsn, m.plan (bufferCheckpoint n).build = .ok p ∧ Straight m p ∧
      commitRecord (bufferCheckpoint n).build m = .ok lsn (m.logged p) ∧
      Piled (n + 1) ((m.logged p).afterPut lsn [bufferAt n]) := by
  obtain ⟨p, hplan, hstraight, hafter⟩ := h.running.straight (by omega) n
  have hcommit := commitRecord_straight hstraight hplan
  have hbound : ¬maxDirtyBytes ≤ m.overlay.bytes := by
    rw [h.bytes, maxDirtyBytes]
    omega
  rw [if_neg hbound] at hcommit
  have hoverlay : (m.logged p).overlay = m.overlay := by
    change (m.entered p).overlay = _
    rw [entered_straight hstraight.wraps]
  refine ⟨p, _, hplan, hstraight, hcommit, h.running.next hstraight.wraps hafter (.inr rfl), ?_, ?_⟩
  · intro b
    rw [overlay_afterPut _ _ (by omega), Overlay.held_wrote, image_length, hoverlay, h.held]
    unfold place divCeil
    omega
  · have hfree : ∀ b, place n ≤ b →
        b < place n + divCeil ((bufferAt n).image (m.logged p).view).length 512 →
        ¬(m.logged p).overlay.Held b := by
      intro b hlo _
      rw [hoverlay, h.held]
      omega
    rw [overlay_afterPut _ _ (by omega), Overlay.bytes_wrote _ _ hfree, image_length, hoverlay,
      h.bytes]
    change 4096 * n + 4096 = _
    omega

end FsXfs.Mount
