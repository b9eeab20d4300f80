import FsXfs.Logbook
import FsXfs.Refusal

/-!
# The head a mount remembers

`commit_record` remembers where the next record goes (`next_head`), so that the ring is scanned
once for each mount. Here that head is compared with the one `log::head` finds by scanning what is
on the device.
-/

namespace FsXfs.Mount

open Log StateProg

set_option autoImplicit false

/-! ## What the scan answers -/

variable {ring : Ring} {parts : List (List Op × ℕ)} {head : Head} {p : Plan} {build : ℕ → List Op}

theorem head_iclogSize {sb : Superblock} {h : Head} (hhead : Log.head sb ring = .ok h) :
    ∃ logBytes, extent sb = .ok logBytes ∧ iclogSizeFits h.iclogSize logBytes := by
  simp only [Log.head, bind_eq_ok] at hhead
  obtain ⟨logBytes, hext, hhead⟩ := hhead
  refine ⟨logBytes, hext, ?_⟩
  split at hhead
  · simp only [bind_eq_ok, pure, Except.pure, Except.ok.injEq] at hhead
    obtain ⟨size, hsize, rfl⟩ := hhead
    simp only [defaultIclogSize] at hsize
    generalize (if min 32768 logBytes = 0 then 0 else 2 ^ (min 32768 logBytes).log2) = given at hsize
    split at hsize
    · next hfits =>
      cases hsize
      exact hfits
    · cases hsize
  · simp only [bind_eq_ok, ensure_eq_ok] at hhead
    obtain ⟨-, hfits, -, -, hhead⟩ := hhead
    split at hhead
    · simp only [bind_eq_ok, pure, Except.pure, Except.ok.injEq] at hhead
      obtain ⟨-, -, rfl⟩ := hhead
      exact hfits
    · simp only [pure, Except.pure, Except.ok.injEq] at hhead
      subst hhead
      exact hfits

theorem ringBlocks_of_extent {sb : Superblock} {logBytes : ℕ} (h : extent sb = .ok logBytes) :
    ringBlocks logBytes = totalBlocks sb := by
  simp only [extent, bind_eq_ok, ensure_eq_ok, pure, Except.pure, Except.ok.injEq] at h
  obtain ⟨-, -, -, -, rfl⟩ := h
  rfl

section

variable {sb : Superblock} {ring : Ring} {logBytes : ℕ} {r : LogRecord}

theorem head_of_scan (hext : extent sb = .ok logBytes)
    (hscan : scanWholeRing ring (totalBlocks sb) = some (r.block, r)) (hblock : r.block < 2 ^ 32)
    (hcycle : r.cycle < 2 ^ 32) (hfits : iclogSizeFits r.iclogSize logBytes)
    (hend : r.block + r.blocks < totalBlocks sb) :
    Log.head sb ring = .ok ⟨r.block + r.blocks, r.cycle, r.block,
      totalBlocks sb - (r.block + r.blocks), r.iclogSize⟩ := by
  have hnamed : r.lsn / 2 ^ 32 % 2 ^ 32 = r.cycle := by
    rw [LogRecord.lsn]
    omega
  refine bind_eq_ok.mpr ⟨logBytes, hext, ?_⟩
  simp only [ringBlocks_of_extent hext, hscan, hnamed]
  refine bind_eq_ok.mpr ⟨(), ensure_of hfits, bind_eq_ok.mpr ⟨(), ensure_of hend.le, ?_⟩⟩
  rw [if_neg hend.ne]
  rfl

theorem head_ne_of_scan (hext : extent sb = .ok logBytes)
    (hscan : scanWholeRing ring (totalBlocks sb) = some (r.block, r))
    (hend : r.block + r.blocks = totalBlocks sb) {h : Head} (hhead : Log.head sb ring = .ok h) :
    h.block = 0 := by
  simp only [Log.head, hext, bind_eq_ok, Except.ok.injEq] at hhead
  obtain ⟨_, rfl, hhead⟩ := hhead
  rw [ringBlocks_of_extent hext, hscan] at hhead
  simp only [bind_eq_ok, ensure_eq_ok, if_pos hend, pure, Except.pure, Except.ok.injEq] at hhead
  obtain ⟨-, -, -, -, -, -, rfl⟩ := hhead
  rfl

end

/-! ## The newest record of a checkpoint -/

/-- `r` is the newest record of the ring, and `after` the head counted on from it. -/
structure Follows (total : ℕ) (ring : Ring) (head : Head) (r : LogRecord) (after : Head) : Prop where
  scan : scanWholeRing ring total = some (r.block, r)
  cycle : r.cycle = head.cycle
  iclogSize : r.iclogSize = head.iclogSize
  after : after = ⟨r.block + r.blocks, r.cycle, r.block, total - (r.block + r.blocks), r.iclogSize⟩

theorem placed_scan {total tid t logsunit : ℕ} (htotal : total < 2 ^ 32)
    (hhead : HeadOk total ring head) (hsized : Sized logsunit head.iclogSize tid parts)
    (hfree : blocksOf parts ≤ head.freeBlocks) (hne : parts ≠ []) :
    ∃ r, Follows total ((placed tid t parts head).foldl Ring.writeRecord ring) head r
        (headAfter parts head) ∧
      r.block + r.blocks = head.block + blocksOf parts := by
  induction parts generalizing head ring with
  | nil => exact absurd rfl hne
  | cons part parts ih =>
    obtain ⟨group, used⟩ := part
    simp only [blocksOf, List.map_cons, List.sum_cons] at hfree ⊢
    have happ : Appended head (recordAt head tid group t ((used - 1) * 512)) (nextAfter head used) :=
      appended_recordAt (hsized _ List.mem_cons_self) (by omega)
    have hblocks : (recordAt head tid group t ((used - 1) * 512)).blocks = used := by
      have hnext := happ.next_block
      change head.block + used = _ at hnext
      omega
    cases parts with
    | nil =>
      refine ⟨recordAt head tid group t ((used - 1) * 512), ⟨hhead.scan happ, rfl, rfl, ?_⟩, ?_⟩
      · have hstop := hhead.stop
        change Head.mk (head.block + used) head.cycle head.block (head.freeBlocks - used)
          head.iclogSize = Head.mk (head.block + _) head.cycle head.block
            (total - (head.block + _)) head.iclogSize
        rw [hblocks, ← hstop, Nat.add_sub_add_left]
      · rw [hblocks]
        rfl
    | cons part parts =>
      have hfree' : blocksOf (part :: parts) ≤ (nextAfter head used).freeBlocks :=
        Nat.le_sub_of_add_le (by rw [Nat.add_comm]; exact hfree)
      obtain ⟨r, hfollows, hend⟩ := ih (hhead.append htotal happ)
        (fun part hp => hsized part (List.mem_cons_of_mem _ hp)) hfree' (by simp)
      refine ⟨r, ⟨hfollows.scan, hfollows.cycle, hfollows.iclogSize, hfollows.after⟩, ?_⟩
      rw [hend, ← Nat.add_assoc]
      rfl

theorem placed_placed {tid t : ℕ} (hring : ring.Placed)
    (hcycle : 0 < head.cycle ∧ head.cycle < 2 ^ 32) :
    ((placed tid t parts head).foldl Ring.writeRecord ring).Placed := by
  induction parts generalizing head ring with
  | nil => exact hring
  | cons part parts ih => exact ih (hring.writeRecord hcycle) hcycle

/-! ## Entering a checkpoint -/

variable {m m' : Mount} {e : Error}

theorem ring_settle (m : Mount) : m.settle.disk.ring = m.disk.ring := by
  rw [disk_settle]

theorem headOk_entered (hhead : HeadOk (totalBlocks m.sb) m.disk.ring p.head)
    (hplaced : m.disk.ring.Placed) (hcan : CanEnter p) (hsize : p.head.iclogSize ≤ 32768) :
    HeadOk (totalBlocks m.sb) (m.entered p).disk.ring (chosenHead p) ∧
      (m.entered p).disk.ring.Placed := by
  cases hwraps : p.wraps with
  | false =>
    rw [entered, chosenHead, hwraps, if_neg Bool.false_ne_true, if_neg Bool.false_ne_true]
    exact ⟨hhead, hplaced⟩
  | true =>
    obtain ⟨hone, -, hcycle⟩ := hcan hwraps
    have hring : (m.entered p).disk.ring = (gapRecords p).foldl Ring.writeRecord m.disk.ring := by
      rw [entered, hwraps, if_pos rfl]
      change (m.settle.emit ((gapRecords p).map .log)).disk.ring = _
      rw [disk_emit_log, ring_settle]
    rw [hring, chosenHead, hwraps, if_pos rfl]
    unfold gapRecords
    split
    · next hfree =>
      have happ := @appended_pad p.head p.tid (lsnOf p.head) (by omega) hsize
      exact ⟨hhead.wrap rfl rfl hcycle hhead.stop fun b hb r hr => hhead.le_of_writeRecord happ hb hr,
        hplaced.writeRecord ⟨hhead.cycle_pos, hhead.cycle_lt⟩⟩
    · next hfree =>
      have hstop := hhead.stop
      exact ⟨hhead.wrap rfl rfl hcycle hhead.stop fun b hb r hr =>
        (hhead.older b hb (by omega) r hr).le, hplaced⟩

/-! ## One call -/

/-- While the mount writes, the head it remembers is the one the scan finds. -/
structure Remembers (m : Mount) : Prop where
  placed : m.disk.ring.Placed
  found : ∀ head, m.nextHead = some head → Log.head m.sb m.disk.ring = .ok head

theorem Remembers.findHead (h : Remembers m) (hfind : m.findHead = .ok head) :
    Log.head m.sb m.disk.ring = .ok head := by
  unfold Mount.findHead at hfind
  cases hnext : m.nextHead with
  | some known =>
    rw [hnext] at hfind
    cases hfind
    exact h.found head hnext
  | none =>
    rw [hnext] at hfind
    exact hfind

theorem Remembers.congr (h : Remembers m) (hsb : m'.sb = m.sb)
    (hring : m'.disk.ring = m.disk.ring) (hnext : m'.nextHead = m.nextHead) : Remembers m' where
  placed := by
    rw [hring]
    exact h.placed
  found := by
    rw [hsb, hring, hnext]
    exact h.found

/-- What is remembered after a checkpoint, and that the scan agrees unless the checkpoint ends with
the ring. -/
theorem Remembers.logged (h : Remembers m) (hplan : m.plan build = .ok p) (hcan : CanEnter p)
    (hfits : p.needed ≤ (chosenHead p).freeBlocks) :
    (m.logged p).disk.ring.Placed ∧
      ((∃ head, (m.logged p).nextHead = some head ∧
          Log.head (m.logged p).sb (m.logged p).disk.ring = .ok head) ↔
        p.needed ≠ (chosenHead p).freeBlocks) := by
  have hp := plan_spec hplan
  have hfound := h.findHead hp.head
  have htotal := totalBlocks_lt m.sb
  obtain ⟨logBytes, hext, hsizeFits⟩ := head_iclogSize hfound
  obtain ⟨cap, hcap⟩ := hp.fits
  obtain ⟨hhead, hplaced⟩ := headOk_entered (head_spec h.placed hfound) h.placed hcan
    (maxPayload_spec hcap).1
  have hsized : Sized m.sb.logsunit (chosenHead p).iclogSize p.tid p.parts := by
    rw [chosenHead_iclogSize]
    exact hp.sized
  have hfree : blocksOf p.parts ≤ (chosenHead p).freeBlocks := by
    rw [hp.blocks]
    exact hfits
  have hring : (m.logged p).disk.ring =
      (m.recordsOf p).foldl Ring.writeRecord (m.entered p).disk.ring := by rw [disk_logged]
  have hsb : (m.logged p).sb = m.sb := entered_sb m p
  obtain ⟨r, hfollows, hend⟩ :=
    placed_scan (t := m.tailFor p) htotal hhead hsized hfree hp.nonempty
  have hstop := hhead.stop
  have hpos := r.one_le_blocks
  rw [hp.blocks] at hend
  have hnext : (m.logged p).nextHead = some (headAfter p.parts (chosenHead p)) := rfl
  refine ⟨?_, ?_⟩
  · rw [hring]
    exact placed_placed hplaced ⟨hhead.cycle_pos, hhead.cycle_lt⟩
  rw [hring, hsb, hnext]
  have hsizeFits' : iclogSizeFits r.iclogSize logBytes := by
    rw [hfollows.iclogSize, chosenHead_iclogSize]
    exact hsizeFits
  constructor
  · rintro ⟨head, hsame, hscan⟩ hexact
    have hzero := head_ne_of_scan hext hfollows.scan (by omega) hscan
    rw [← Option.some.inj hsame, hfollows.after] at hzero
    simp only at hzero
    omega
  · intro hne
    refine ⟨_, rfl, ?_⟩
    rw [hfollows.after]
    refine head_of_scan hext hfollows.scan (by omega) ?_ hsizeFits' (by omega)
    rw [hfollows.cycle]
    exact hhead.cycle_lt

/-! ## Runs -/

inductive Act where
  | commit (build : ℕ → List Op)
  | sync
  | note (items : List Item)
  | data (at_ : ℕ) (bytes : List UInt8)

def act (m : Mount) : Act → Mount
  | .commit build => finalState (commitRecord build m)
  | .sync => finalState (Mount.sync m)
  | .note items => m.loggedItems items
  | .data at_ bytes => finalState (write (.data at_ bytes) m)

def acts (m : Mount) (as : List Act) : Mount :=
  as.foldl act m

/-- The checkpoint does not take exactly the blocks that are left where it is placed; and if it has
to start the ring again from a head with blocks left, the ring is large enough for it and its cycle
not the last. -/
def Clears (m : Mount) : Act → Prop
  | .commit build => ∀ p, m.plan build = .ok p →
      p.needed ≠ (chosenHead p).freeBlocks ∧
        (p.wraps = true → p.head.freeBlocks = 0 ∨
          p.needed ≤ (chosenHead p).freeBlocks ∧ p.head.cycle + 1 < 2 ^ 32)
  | _ => True

def ClearsAll (m : Mount) : List Act → Prop
  | [] => True
  | a :: as => m.Clears a ∧ (m.act a).ClearsAll as

section

variable (h : Remembers m)

include h

theorem Remembers.settle : Remembers m.settle :=
  h.congr rfl (ring_settle m) rfl

theorem Remembers.entered_of_full (hfull : p.head.freeBlocks = 0) :
    Remembers (m.entered p) := by
  unfold entered
  split
  · have hnil : gapRecords p = [] := gapRecords_eq_nil.mpr hfull
    unfold wrapped
    rw [hnil, List.map_nil, emit_nil]
    exact h.settle.congr rfl rfl rfl
  · exact h

theorem Remembers.wrapRing_error (hfail : m.writeFailed = false) (hwr : m.writable = true)
    (hwrap : wrapRing p m = .error e m')
    (hclear : p.head.freeBlocks = 0 ∨ p.head.cycle + 1 < 2 ^ 32) (hgood : m'.writeFailed = false) :
    Remembers m' := by
  rcases wrapRing_eq_error hfail hwr hwrap with ⟨-, events, -, rfl⟩ | hpad | ⟨-, -, -, -, hlast, rfl⟩
  · cases hgood
  · rcases padGap_eq_error hpad with ⟨-, -, -, rfl⟩ | ⟨-, -, rfl⟩ | ⟨-, -, -, events, -, rfl⟩
    · cases hgood
    · exact h.settle
    · cases hgood
  · have hfull : p.head.freeBlocks = 0 := by omega
    rw [gapRecords_eq_nil.mpr hfull, List.map_nil, emit_nil]
    exact h.settle

theorem Remembers.stopped (hplan : m.plan build = .ok p) (hclear : m.Clears (.commit build))
    (hstop : Stopped m p e m') (hgood : m'.writeFailed = false) :
    Remembers m' := by
  cases hstop with
  | tooLarge hlarge _ _ =>
    refine h.entered_of_full ?_
    cases hwraps : p.wraps with
    | true =>
      rcases (hclear p hplan).2 hwraps with hfull | ⟨hle, -⟩
      · exact hfull
      · omega
    | false =>
      rw [chosenHead, hwraps, if_neg Bool.false_ne_true] at hlarge
      have hno : wrapsFirst p.needed p.head.freeBlocks p.tid = false := hwraps
      rw [wrapsFirst, decide_eq_true (p := p.head.freeBlocks < p.needed) hlarge] at hno
      cases hno
  | offStripe _ _ _ => cases hgood
  | record _ _ _ => cases hgood
  | push _ _ _ _ => cases hgood

theorem Remembers.commit (hclear : m.Clears (.commit build))
    (hgood : (m.act (.commit build)).writeFailed = false) : Remembers (m.act (.commit build)) := by
  change (finalState (commitRecord build m)).writeFailed = false at hgood
  change Remembers (finalState (commitRecord build m))
  cases hres : commitRecord build m with
  | ok lsn m' =>
    obtain ⟨p, hplan, -, -, hcan, hfits, -, -, hm'⟩ := commitRecord_eq_ok hres
    obtain ⟨hplaced, hfound⟩ := h.logged hplan hcan hfits
    have hlogged : Remembers (m.logged p) := by
      refine ⟨hplaced, fun head hnext => ?_⟩
      obtain ⟨head', hnext', hscan⟩ := hfound.mpr (hclear p hplan).1
      obtain rfl := Option.some.inj (hnext.symm.trans hnext')
      exact hscan
    change Remembers m'
    rw [hm']
    split
    · exact hlogged.settle
    · exact hlogged
  | error e m' =>
    rw [hres] at hgood
    change Remembers m'
    rcases commitRecord_eq_error hres with ⟨rfl, -⟩ | ⟨p, hplan, hfail, hwr, hend⟩
    · exact h
    rcases hend with ⟨hwraps, hwrap⟩ | ⟨-, hstop⟩
    · refine h.wrapRing_error hfail hwr hwrap ?_ hgood
      rcases (hclear p hplan).2 hwraps with hfull | ⟨-, hcycle⟩
      · exact .inl hfull
      · exact .inr hcycle
    · exact h.stopped hplan hclear hstop hgood

end

theorem ring_emit_data (m : Mount) (at_ : ℕ) (bytes : List UInt8) :
    (m.emit [.data at_ bytes]).disk.ring = m.disk.ring := by
  rw [Mount.disk, emit, List.foldl_append]
  rfl

theorem Remembers.act {a : Act} (h : m.writeFailed = false → Remembers m) (hclear : m.Clears a)
    (hgood : (m.act a).writeFailed = false) : Remembers (m.act a) := by
  cases a with
  | commit build =>
    cases hfail : m.writeFailed with
    | false => exact (h hfail).commit hclear hgood
    | true =>
      obtain ⟨e, hstop⟩ := commitRecord_of_writeFailed hfail build
      change (finalState (commitRecord build m)).writeFailed = false at hgood
      rw [hstop] at hgood
      cases hgood.symm.trans hfail
  | sync =>
    change (finalState (Mount.sync m)).writeFailed = false at hgood
    change Remembers (finalState (Mount.sync m))
    cases hres : Mount.sync m with
    | ok u m' =>
      obtain ⟨hfail, -, rfl⟩ := sync_eq_ok hres
      exact (h hfail).settle
    | error e m' =>
      rw [hres] at hgood
      rcases sync_eq_error hres with ⟨rfl, -, -⟩ | ⟨-, events, -, rfl⟩
      · exact h hgood
      · exact absurd hgood (by simp [finalState])
  | note items =>
    change (m.loggedItems items).writeFailed = false at hgood
    change Remembers (m.loggedItems items)
    rw [loggedItems_eq items m] at hgood ⊢
    exact (h hgood).congr rfl rfl rfl
  | data at_ bytes =>
    change (finalState (write (.data at_ bytes) m)).writeFailed = false at hgood
    change Remembers (finalState (write (.data at_ bytes) m))
    unfold write at hgood ⊢
    cases hout : m.outcome m.trace.length with
    | done =>
      rw [hout] at hgood
      exact (h hgood).congr rfl (ring_emit_data m at_ bytes) rfl
    | lost =>
      rw [hout] at hgood
      exact h hgood
    | landed =>
      rw [hout] at hgood
      exact (h hgood).congr rfl (ring_emit_data m at_ bytes) rfl

theorem Remembers.acts {as : List Act} (h : m.writeFailed = false → Remembers m)
    (hclear : m.ClearsAll as) (hgood : (m.acts as).writeFailed = false) : Remembers (m.acts as) := by
  induction as generalizing m with
  | nil => exact h hgood
  | cons a as ih => exact ih (fun hgood' => Remembers.act h hclear.1 hgood') hclear.2 hgood

/-- From a mount that has found no head yet, in every run whose checkpoints are clear of the end of
the ring, the head remembered is the one the scan finds, as long as the mount writes; and the next
checkpoint keeps it so exactly when it does not end with the ring. -/
theorem nextHead_found {m : Mount} (hnext : m.nextHead = none) (hplaced : m.disk.ring.Placed)
    {as : List Act} (hclear : m.ClearsAll as) (hgood : (m.acts as).writeFailed = false) :
    (∀ head, (m.acts as).nextHead = some head →
        Log.head (m.acts as).sb (m.acts as).disk.ring = .ok head) ∧
      ∀ build p lsn m', (m.acts as).plan build = .ok p →
        commitRecord build (m.acts as) = .ok lsn m' →
        ((∃ head, m'.nextHead = some head ∧ Log.head m'.sb m'.disk.ring = .ok head) ↔
          p.needed ≠ (chosenHead p).freeBlocks) := by
  have hstart : Remembers m := by
    refine ⟨hplaced, fun head hsome => ?_⟩
    rw [hnext] at hsome
    cases hsome
  have h : Remembers (m.acts as) := Remembers.acts (fun _ => hstart) hclear hgood
  refine ⟨h.found, fun build p lsn m' hplan hok => ?_⟩
  obtain ⟨p', hplan', -, -, hcan, hfits, -, -, hm'⟩ := commitRecord_eq_ok hok
  obtain rfl := Except.ok.inj (hplan.symm.trans hplan')
  have hiff := (h.logged hplan hcan hfits).2
  rw [hm']
  split
  · rw [ring_settle]
    exact hiff
  · exact hiff

/-! ## On a log of 16 blocks -/

def oneOp (size : ℕ) : ℕ → List Op := fun _ =>
  [⟨0, List.replicate size 0⟩]

def clearsCheck (m : Mount) (build : ℕ → List Op) : Bool :=
  match m.plan build with
  | .ok p => decide (p.needed ≠ (chosenHead p).freeBlocks) && !p.wraps
  | .error _ => true

theorem clears_of_check (h : m.clearsCheck build = true) :
    m.Clears (.commit build) := by
  intro p hplan
  simp only [clearsCheck, hplan, Bool.and_eq_true, Bool.not_eq_true', decide_eq_true_eq] at h
  exact ⟨h.1, fun hwraps => absurd (hwraps.symm.trans h.2) (by simp)⟩

theorem blankVolume_placed : blankVolume.disk.ring.Placed := by
  intro b r k hb
  cases hb

theorem nextHead_found_oneOp :
    ∃ head, (blankVolume.acts [.commit (oneOp 100), .sync]).nextHead = some head ∧
      Log.head (blankVolume.acts [.commit (oneOp 100), .sync]).sb
        (blankVolume.acts [.commit (oneOp 100), .sync]).disk.ring = .ok head := by
  have hsome : (blankVolume.acts [.commit (oneOp 100), .sync]).nextHead.isSome = true := by
    decide +kernel
  obtain ⟨head, hhead⟩ := Option.isSome_iff_exists.mp hsome
  refine ⟨head, hhead, (nextHead_found rfl blankVolume_placed ?_ (by decide +kernel)).1 head hhead⟩
  exact ⟨clears_of_check (by decide +kernel), trivial, trivial⟩

/-- A first checkpoint of sixteen blocks fills the ring: the head remembered is its end, and the
scan finds its beginning, in the next cycle. -/
theorem nextHead_not_found_exactFit :
    blankVolume.nextHead = none ∧ blankVolume.disk.ring.Placed ∧
      ∃ lsn m' head, commitRecord (oneOp 7500) blankVolume = .ok lsn m' ∧
        m'.writeFailed = false ∧ m'.nextHead = some head ∧
        Log.head m'.sb m'.disk.ring ≠ .ok head := by
  refine ⟨rfl, blankVolume_placed, ?_⟩
  have hcheck : ((commitRecord (oneOp 7500) blankVolume).casesOn
      (fun _ m' => decide (m'.writeFailed = false ∧ m'.nextHead = some ⟨16, 1, 0, 0, 8192⟩ ∧
        Log.head m'.sb m'.disk.ring = .ok ⟨0, 2, 0, 16, 8192⟩))
      fun _ _ => false : Bool) = true := by decide +kernel
  cases hres : commitRecord (oneOp 7500) blankVolume with
  | error e m' => simp [hres] at hcheck
  | ok lsn m' =>
    rw [hres] at hcheck
    obtain ⟨hgood, hnext, hscan⟩ := of_decide_eq_true hcheck
    refine ⟨lsn, m', _, rfl, hgood, hnext, ?_⟩
    rw [hscan]
    decide

end FsXfs.Mount
