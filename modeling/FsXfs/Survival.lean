import FsXfs.Journal
import FsXfs.WholeBlocks

/-!
# What a crash can lose

The result about whole runs, and the run that shows where it ends.

The run that loses an operation logs one whole block after another, each at a place of its own,
until the overlay has reached its bound.
-/

namespace FsXfs.Mount

open Log Redo StateProg Cut Bytes

set_option autoImplicit false

variable {decode : List (List UInt8) → List Item} {m m₁ m₂ : Mount}
  {old live : List (ℕ × List Item)}

/-! ## A commit that goes through -/

theorem operate_straight {op : Operation decode} {p : Plan} (h : Straight m p)
    (hplan : m.plan op.build = .ok p) :
    ∃ lsn, lsn = ((m.recordsOf p).map LogRecord.lsn).getLastD 0 ∧
      operate op m = .ok lsn
        ((if maxDirtyBytes ≤ m.overlay.bytes then (m.logged p).settle else m.logged p).afterPut lsn
          op.items) :=
  ⟨_, rfl, seq_eq_ok.mpr ⟨_, _, commitRecord_straight h hplan, rfl⟩⟩

/-! ## A push between a record and its items -/

theorem returnedOps_logged_straight {p : Plan} (h : p.wraps = false) :
    returnedOps (m.logged p).trace = returnedOps m.trace := by
  change returnedOps ((m.entered p).trace ++ (m.recordsOf p).map .log) = _
  rw [returnedOps_append, returnedOps_journal (journal_log (List.prefix_refl _)), List.append_nil,
    entered_straight h]

theorem returnedOps_afterPut (m : Mount) (lsn : ℕ) (items : List Item) :
    returnedOps (m.afterPut lsn items).trace = returnedOps m.trace ++ [(lsn, items)] := by
  rw [afterPut_eq, returnedOps_append]
  rfl

theorem returnedOps_settle (m : Mount) : returnedOps m.settle.trace = returnedOps m.trace := by
  change returnedOps (m.trace ++ pushEvents m.overlay) = _
  rw [returnedOps_append, returnedOps_journal (journal_push (List.prefix_refl _)), List.append_nil]

section

variable {x y : Operation decode} {px py : Plan} {lsn lsn' : ℕ}

theorem Journal.headOk_after (h : Journal decode m old live) (hp : Planned m x.build px)
    (hwraps : px.wraps = false) (hfits : px.needed ≤ px.head.freeBlocks) :
    HeadOk (totalBlocks m.sb) (m.logged px).disk.ring (headAfter px.parts px.head) ∧
      (m.logged px).disk.ring.Placed := by
  obtain ⟨-, hlogged⟩ := h.logbook.logged hp (fun hno => by rw [hwraps] at hno; cases hno)
    (by rw [chosenHead_straight hwraps]; exact hfits) rfl
  have hsb : (m.logged px).sb = m.sb := entered_sb m px
  have hhead := hlogged.head (headAfter px.parts px.head) (by rw [← chosenHead_straight hwraps]; rfl)
  rw [hsb] at hhead
  exact ⟨hhead, hlogged.placed⟩

/-- A commit that pushes after its records are written takes the tail past them, and its items are
on no home block. With the next operation's record they are no longer in the log's live part. -/
theorem push_forgets_operation (h : Journal decode m old live) (hnone : y.Uncancelled)
    (hx : Planned m x.build px) (hxwraps : px.wraps = false) (hxfits : px.needed ≤ px.head.freeBlocks)
    (hm₁ : m₁ = (m.logged px).settle.afterPut lsn x.items)
    (hy : Planned m₁ y.build py) (hywraps : py.wraps = false)
    (hyfits : py.needed ≤ py.head.freeBlocks)
    (hlsn' : lsn' = ((m₁.recordsOf py).map LogRecord.lsn).getLastD 0)
    (hm₂ : m₂ = (m₁.logged py).afterPut lsn' y.items) :
    returnedOps m₂.trace = old ++ live ++ [(lsn, x.items), (lsn', y.items)] ∧
      recover decode m₂.disk (totalBlocks m.sb) =
        .ok (applyAll (redo (old ++ live ++ [(lsn', y.items)])) m.base.home) := by
  obtain ⟨hhead, hplaced⟩ := h.headOk_after hx hxwraps hxfits
  have hdisk₁ : m₁.disk = ⟨(m.logged px).disk.ring, m.view⟩ := by
    rw [hm₁, disk_afterPut, disk_settle, view_logged]
  have hnext : m₁.nextHead = some (headAfter px.parts px.head) := by
    rw [hm₁, afterPut_eq, ← chosenHead_straight hxwraps]
    rfl
  have hold : m₁.oldestRecord = none := by
    rw [hm₁, afterPut_eq]
    rfl
  have hhead₁ : py.head = headAfter px.parts px.head := by
    have hfind := hy.head
    rw [findHead, hnext] at hfind
    exact (Except.ok.inj hfind).symm
  rw [← hhead₁] at hhead
  have hring₁ : m₁.disk.ring = (m.logged px).disk.ring := by rw [hdisk₁]
  rw [← hring₁] at hhead hplaced
  have hops : (py.parts.map Prod.fst).flatten = y.build py.tid := by
    rw [hy.groups, hy.flatten]
  have hrecords : m₁.recordsOf py = placed py.tid (lsnOf py.head) py.parts py.head := by
    rw [recordsOf, tailFor, entered_straight hywraps, chosenHead_straight hywraps, hold]
    rfl
  rw [hrecords] at hlsn'
  have hext := (ready_at hhead).extend (totalBlocks_lt m.sb) hplaced hy.sized
    (by rw [hy.blocks]; exact hyfits) hy.nonempty (show _ <+: y.build py.tid from hops ▸ List.prefix_refl _)
  obtain ⟨-, hholds⟩ := (ready_at hhead).after hext hy.nonempty hops hlsn'
  obtain ⟨transactions, hout, hitems⟩ := hholds.outstanding
  have hdisk₂ : m₂.disk = ⟨(placed py.tid (lsnOf py.head) py.parts py.head).foldl
      Ring.writeRecord m₁.disk.ring, m.view⟩ := by
    rw [hm₂, disk_afterPut, disk_logged, entered_straight hywraps, hrecords, hdisk₁]
  constructor
  · rw [hm₂, returnedOps_afterPut, returnedOps_logged_straight hywraps, hm₁, returnedOps_afterPut,
      returnedOps_settle, returnedOps_logged_straight hxwraps, h.mirror.returned,
      List.append_assoc]
    rfl
  · have hhome : AtLeast m.base.home (old ++ live ++ []) (old ++ live).length m₂.disk.home := by
      rw [hdisk₂, List.append_nil]
      exact atLeast_all h.mirror.view
    have hout₂ : outstanding m₂.disk.ring (totalBlocks m.sb) = .ok transactions := by
      rw [hdisk₂]
      exact hout
    have hrec := recover_eq hhome hout₂ hitems (by
      intro op hop
      rw [List.mem_singleton.mp hop]
      exact hnone)
    rwa [List.append_nil] at hrec

end

/-! ## One block after another -/

def logBuffer (i : ℕ) : Operation decodeBuffers where
  toCheckpoint := bufferCheckpoint i
  inside := inside_bufferAt i

theorem logBuffer_uncancelled (i : ℕ) : (logBuffer i).Uncancelled := by
  intro item hitem
  rw [List.mem_singleton.mp hitem]
  rfl

structure Filled (n : ℕ) (m : Mount) : Prop where
  piled : Piled n m
  journal : ∃ old live, Journal decodeBuffers m old live
  returned : (returnedOps m.trace).map Prod.snd = (List.range n).map fun i => [bufferAt i]

theorem bigLogVolume_filled : Filled 0 bigLogVolume where
  piled := bigLogVolume_piled
  journal := ⟨_, _, bigLogVolume_clean.journal⟩
  returned := rfl

variable {n : ℕ} {ops : List (ℕ × List Item)}

theorem Filled.step (h : Filled n m) (hn : n < 4096) :
    Filled (n + 1) (m.step (.operation (logBuffer n))) := by
  obtain ⟨p, lsn, -, hstraight, hcommit, hpiled⟩ := h.piled.put hn
  have hop : operate (logBuffer n) m = .ok lsn ((m.logged p).afterPut lsn [bufferAt n]) :=
    seq_eq_ok.mpr ⟨lsn, _, hcommit, rfl⟩
  have hstep : m.step (.operation (logBuffer n)) = (m.logged p).afterPut lsn [bufferAt n] := by
    rw [Mount.step, hop]
    rfl
  obtain ⟨old, live, hjournal⟩ := h.journal
  have hbound : m.overlay.bytes < maxDirtyBytes := by
    rw [h.piled.bytes, maxDirtyBytes]
    omega
  have hmeets : Meets m (.operation (logBuffer n)) := ⟨logBuffer_uncancelled n, fun _ _ => .inr hbound⟩
  have hadv := advances_operate hjournal hmeets (List.mem_singleton_self _)
  rw [hstep]
  refine ⟨hpiled, ?_, ?_⟩
  · have hj := hadv.journal
    rw [hop] at hj
    exact hj hpiled.running.writeFailed
  · rw [returnedOps_afterPut, returnedOps_logged_straight hstraight.wraps, List.map_append,
      h.returned, List.range_succ, List.map_append]
    rfl

def fills (n : ℕ) : List (Step decodeBuffers) :=
  (List.range n).map fun i => .operation (logBuffer i)

theorem run_fills_succ (m : Mount) (n : ℕ) :
    m.run (fills (n + 1)) = (m.run (fills n)).step (.operation (logBuffer n)) := by
  rw [run, fills, List.range_succ, List.map_append, List.foldl_append]
  rfl

theorem filled_run (hn : n ≤ 4096) : Filled n (bigLogVolume.run (fills n)) := by
  induction n with
  | zero => exact bigLogVolume_filled
  | succ n ih =>
    rw [run_fills_succ]
    exact (ih (by omega)).step (by omega)

theorem mem_itemsAsked_fills {items : List Item} (h : items ∈ itemsAsked (fills n)) :
    ∃ i, items = [bufferAt i] := by
  obtain ⟨s, hs, hitems⟩ := List.mem_filterMap.mp h
  obtain ⟨i, -, rfl⟩ := List.mem_map.mp hs
  exact ⟨i, (Option.some.inj hitems).symm⟩

theorem redo_ones (h : ∀ op ∈ ops, ∃ i, op.2 = [bufferAt i]) {a : ℕ} (hcov : Covers (redo ops) a)
    (before : ℕ → UInt8) : applyAll (redo ops) before a = 1 := by
  refine applyAll_of_agree ?_ hcov
  intro p hp b hb
  obtain ⟨op, hop, hp⟩ := List.mem_flatMap.mp hp
  obtain ⟨i, hi⟩ := h op hop
  rw [hi, List.flatMap_singleton] at hp
  rw [List.mem_singleton.mp hp] at hb
  exact chunkPatch_ones hb

theorem covers_bufferAt {i a : ℕ} (h : i ≤ 4700) :
    Covers (bufferAt i).patches a ↔ place i * 512 ≤ a ∧ a < place (i + 1) * 512 := by
  have hpatches : (bufferAt i).patches = [chunkPatch (place i * 512) ones] := by
    change [chunkPatch (place i % 256 ^ 8 * 512 + 0) ones] = _
    rw [place_mod h, Nat.add_zero]
  have hsize : place i * 512 + 4096 = place (i + 1) * 512 := by
    unfold place
    omega
  rw [hpatches, ← hsize, ← ones_length]
  constructor
  · rintro ⟨p, hp, hsome⟩
    rw [List.mem_singleton.mp hp, chunkPatch] at hsome
    split at hsome
    · assumption
    · cases hsome
  · intro hin
    exact ⟨_, List.mem_singleton_self _, by rw [chunkPatch, if_pos hin]; rfl⟩

theorem not_covers_redo {i : ℕ} (h : ∀ op ∈ ops, ∃ j, j ≠ i ∧ j ≤ 4700 ∧ op.2 = [bufferAt j]) :
    ¬Covers (redo ops) (place i * 512) := by
  rintro ⟨p, hp, hsome⟩
  obtain ⟨op, hop, hp⟩ := List.mem_flatMap.mp hp
  obtain ⟨j, hne, hj, hitems⟩ := h op hop
  rw [hitems, List.flatMap_singleton] at hp
  have hcov := (covers_bufferAt hj).mp ⟨p, hp, hsome⟩
  unfold place at hcov
  omega

/-- With the overlay at its bound, the next two operations return, and a replay then makes what all
but the first of them did. -/
theorem Filled.forgets (h : Filled 4096 m)
    (hm₂ : m₂ = (m.step (.operation (logBuffer 4096))).step (.operation (logBuffer 4097))) :
    m₂.base = .blank ∧ ∃ first lsn lsn',
      (∀ op ∈ first, ∃ j, j < 4096 ∧ op.2 = [bufferAt j]) ∧
      returnedOps m₂.trace = first ++ [(lsn, [bufferAt 4096]), (lsn', [bufferAt 4097])] ∧
      recover decodeBuffers m₂.disk (totalBlocks bigLog) =
        .ok (applyAll (redo (first ++ [(lsn', [bufferAt 4097])])) Disk.blank.home) := by
  obtain ⟨px, hxplan, hx, hxafter⟩ := h.piled.running.straight (by decide) 4096
  obtain ⟨lsn, -, hxop⟩ := @operate_straight decodeBuffers m (logBuffer 4096) px hx hxplan
  have hbound : maxDirtyBytes ≤ m.overlay.bytes := by
    rw [h.piled.bytes, maxDirtyBytes]
  rw [if_pos hbound] at hxop
  generalize hm₁ : (m.logged px).settle.afterPut lsn (logBuffer 4096).items = m₁ at hxop
  have hstep₁ : m.step (.operation (logBuffer 4096)) = m₁ := by
    rw [Mount.step, hxop]
    rfl
  have hrunning₁ : Running 4097 m₁ := h.piled.running.next hx.wraps hxafter (.inl hm₁.symm)
  have hbytes : m₁.overlay.bytes = 4096 := by
    rw [← hm₁]
    exact bytes_afterPut_of_empty rfl lsn (by decide)
  obtain ⟨py, hyplan, hy, hyafter⟩ := hrunning₁.straight (by decide) 4097
  obtain ⟨lsn', hlsn', hyop⟩ := @operate_straight decodeBuffers m₁ (logBuffer 4097) py hy hyplan
  rw [if_neg (by rw [hbytes]; decide)] at hyop
  have hstep₂ : m₂ = (m₁.logged py).afterPut lsn' (logBuffer 4097).items := by
    rw [hm₂, hstep₁, Mount.step, hyop]
    rfl
  have hrunning₂ : Running 4098 m₂ := hrunning₁.next hy.wraps hyafter (.inr hstep₂)
  obtain ⟨old, live, hjournal⟩ := h.journal
  have hxspec : m.Planned (logBuffer 4096).toCheckpoint.build px := plan_spec hxplan
  have hyspec : m₁.Planned (logBuffer 4097).toCheckpoint.build py := plan_spec hyplan
  obtain ⟨hreturned, hrecover⟩ := push_forgets_operation hjournal (logBuffer_uncancelled _)
    hxspec hx.wraps hx.fits hm₁.symm hyspec hy.wraps hy.fits hlsn' hstep₂
  rw [h.piled.running.sb, h.piled.running.base] at hrecover
  refine ⟨hrunning₂.base, old ++ live, lsn, lsn', ?_, hreturned, hrecover⟩
  intro op hop
  rw [← hjournal.mirror.returned] at hop
  have hmem : op.2 ∈ (returnedOps m.trace).map Prod.snd := List.mem_map_of_mem hop
  rw [h.returned] at hmem
  obtain ⟨j, hj, hitems⟩ := List.mem_map.mp hmem
  exact ⟨j, List.mem_range.mp hj, hitems.symm⟩

/-! ## Whole runs -/

/-- In every run from a clean log whose commits never push between a record and its items, a crash
at any moment loses no operation that has returned: each is on its home blocks or at or after the
tail of the newest record, and a replay leaves what all of them in order make. -/
theorem returned_operations_survive_every_crash (hclean : Clean m) (steps : List (Step decode))
    (hmeets : MeetsAll m steps) :
    Cuts (fun t => Survives decode m.base.home (totalBlocks m.sb) (itemsAsked steps)
      (returnedOps t) (t.foldl Event.apply m.base)) (m.run steps).trace :=
  (run_survives hclean.reached hmeets (List.Subset.refl _)).cuts

/-- A block logged and then pushed by a sync is there after a crash at any moment. -/
theorem one_block_survives_every_crash :
    Clean bigLogVolume ∧ MeetsAll bigLogVolume [.operation (logBuffer 0), .sync] ∧
      Cuts (fun t => Survives decodeBuffers bigLogVolume.base.home (totalBlocks bigLogVolume.sb)
        (itemsAsked [.operation (logBuffer 0), .sync]) (returnedOps t)
        (t.foldl Event.apply bigLogVolume.base))
        (bigLogVolume.run [.operation (logBuffer 0), .sync]).trace := by
  have hmeets : MeetsAll bigLogVolume [.operation (logBuffer 0), .sync] :=
    ⟨⟨logBuffer_uncancelled 0, fun _ _ => .inr (by decide)⟩, trivial, trivial⟩
  exact ⟨bigLogVolume_clean, hmeets,
    returned_operations_survive_every_crash bigLogVolume_clean _ hmeets⟩

/-- After 4096 blocks are logged, the commit of the next one pushes and forgets the tail before its
block is in the overlay. The record after it names itself as the tail, and a crash then loses the
block, though its operation had returned. -/
theorem push_before_put_loses_a_block :
    Clean bigLogVolume ∧
      ¬Cuts (fun t => Survives decodeBuffers bigLogVolume.base.home (totalBlocks bigLogVolume.sb)
        (itemsAsked (fills 4098)) (returnedOps t) (t.foldl Event.apply bigLogVolume.base))
        (bigLogVolume.run (fills 4098)).trace := by
  refine ⟨bigLogVolume_clean, fun hcuts => ?_⟩
  obtain ⟨hbase, first, lsn, lsn', hfirst, hreturned, hrecover⟩ :=
    (@filled_run 4096 (le_refl _)).forgets rfl
  rw [← run_fills_succ, ← run_fills_succ] at hbase hreturned hrecover
  obtain ⟨-, extra, hextra, hrec⟩ := hcuts.whole
  have hdisk : (bigLogVolume.run (fills 4098)).trace.foldl Event.apply bigLogVolume.base =
      (bigLogVolume.run (fills 4098)).disk := by
    rw [disk, hbase]
    rfl
  rw [hdisk] at hrec
  have hat := congrFun (Except.ok.inj (hrecover.symm.trans hrec)) (place 4096 * 512)
  have hlost : ¬Covers (redo (first ++ [(lsn', [bufferAt 4097])])) (place 4096 * 512) := by
    apply not_covers_redo
    intro op hop
    rcases List.mem_append.mp hop with hop | hop
    · obtain ⟨j, hj, hitems⟩ := hfirst op hop
      exact ⟨j, by omega, by omega, hitems⟩
    · rw [List.mem_singleton.mp hop]
      exact ⟨4097, by decide, by decide, rfl⟩
  have hthere : Covers (redo (returnedOps (bigLogVolume.run (fills 4098)).trace ++ extra))
      (place 4096 * 512) := by
    obtain ⟨p, hp, hsome⟩ := (@covers_bufferAt 4096 (place 4096 * 512) (by decide)).mpr (by decide)
    refine ⟨p, List.mem_flatMap.mpr ⟨(lsn, [bufferAt 4096]), ?_, ?_⟩, hsome⟩
    · rw [hreturned]
      simp
    · exact hp
  have hones : ∀ op ∈ returnedOps (bigLogVolume.run (fills 4098)).trace ++ extra,
      ∃ i, op.2 = [bufferAt i] := by
    intro op hop
    rw [hreturned] at hop
    simp only [List.mem_append, List.mem_cons, List.not_mem_nil, or_false] at hop
    rcases hop with (hop | rfl | rfl) | hop
    · obtain ⟨j, -, hitems⟩ := hfirst op hop
      exact ⟨j, hitems⟩
    · exact ⟨4096, rfl⟩
    · exact ⟨4097, rfl⟩
    · rcases hextra with rfl | ⟨items, hitems, rfl⟩
      · cases hop
      · obtain ⟨i, hi⟩ := mem_itemsAsked_fills hitems
        rw [List.mem_singleton.mp hop]
        exact ⟨i, hi⟩
  rw [applyAll_of_not_covers hlost, redo_ones hones hthere] at hat
  exact absurd hat (by decide)

end FsXfs.Mount
