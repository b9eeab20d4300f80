import FsXfs.Commit

/-!
# Where a commit puts its records

Every record `commit_record` writes, on any device, told from the trace: the pad that closes the
ring first, then the checkpoint's own records from the head it chose.
-/

namespace FsXfs.Mount

open Log StateProg

set_option autoImplicit false
set_option maxRecDepth 8192

variable {m m' : Mount} {e : Error} {build : ℕ → List Op} {p : Plan}

/-! ## Records in a row -/

theorem placed_chain {tid tail cap logsunit : ℕ} {parts : List (List Op × ℕ)} {head : Head}
    (hcap : maxPayload head.iclogSize = .ok cap)
    (hsized : Sized logsunit head.iclogSize tid parts) :
    Chain head.block (placed tid tail parts head) ∧
      span (placed tid tail parts head) = blocksOf parts ∧
      ∀ r ∈ placed tid tail parts head, r.len ≤ cap := by
  induction parts generalizing head with
  | nil => exact ⟨trivial, rfl, by simp [placed]⟩
  | cons part parts ih =>
    obtain ⟨group, used⟩ := part
    obtain ⟨cap', hcap', -, -, hpos, hle, -⟩ := recordBlocksForLog_spec (hsized _ List.mem_cons_self)
    obtain rfl : cap = cap' := Except.ok.inj (hcap.symm.trans hcap')
    obtain ⟨hchain, hspan, hlen⟩ := @ih (nextAfter head used) hcap
      (fun part hp => hsized part (List.mem_cons_of_mem _ hp))
    have hblocks : (recordAt head tid group tail ((used - 1) * 512)).blocks = used := by
      rw [recordAt_blocks (maxPayload_spec hcap).1]
      exact Nat.add_sub_cancel' hpos
    refine ⟨⟨rfl, ?_⟩, ?_, ?_⟩
    · rw [hblocks]
      exact hchain
    · simp only [span, placed, List.map_cons, List.sum_cons, hblocks, blocksOf] at hspan ⊢
      rw [hspan]
    · intro r hr
      rcases List.mem_cons.mp hr with rfl | hr
      · exact hle
      · exact hlen r hr

theorem gapRecords_chain (hsize : p.head.iclogSize ≤ 32768) :
    Chain p.head.block (gapRecords p) ∧ span (gapRecords p) = p.head.freeBlocks := by
  unfold gapRecords
  split
  · next hfree =>
    refine ⟨⟨rfl, trivial⟩, ?_⟩
    rw [span, List.map_singleton, List.sum_singleton, padRecord, recordAt_blocks hsize]
    omega
  · exact ⟨trivial, by simp [span]; omega⟩

/-! ## What a call writes -/

def logWrites (events : List Event) : List LogRecord :=
  events.filterMap Event.record?

def written (m m' : Mount) : List LogRecord :=
  logWrites (m'.trace.drop m.trace.length)

theorem logWrites_append (as bs : List Event) :
    logWrites (as ++ bs) = logWrites as ++ logWrites bs :=
  List.filterMap_append

theorem logWrites_log (rs : List LogRecord) : logWrites (rs.map .log) = rs := by
  rw [logWrites, List.filterMap_map]
  exact List.filterMap_some

variable {events : List Event} {o : Overlay}

theorem logWrites_pushed (h : events <+: pushEvents o) : logWrites events = [] := by
  rw [logWrites, List.filterMap_eq_nil_iff]
  intro ev hev
  obtain ⟨s, -, rfl⟩ := List.mem_map.mp (h.subset hev)
  rfl

theorem written_of_trace (h : m'.trace = m.trace ++ events) : written m m' = logWrites events := by
  rw [written, h, List.drop_left]

theorem prefix_map_log {rs : List LogRecord} (h : events <+: rs.map Event.log) :
    logWrites events <+: rs := by
  have := h.filterMap Event.record?
  rwa [← logWrites, ← logWrites, logWrites_log] at this

/-- What a call has written when it ends, for the head it chose: some of the gap's records and then
some of the checkpoint's, the gap's all there before any of the checkpoint's. -/
structure Wrote (m : Mount) (p : Plan) (m' : Mount) (gap body : List LogRecord) : Prop where
  records : written m m' = gap ++ body
  gap_prefix : gap <+: gapRecords p
  body_prefix : body <+: m.recordsOf p
  straight : p.wraps = false → gap = []
  filled : p.wraps = true → body ≠ [] → gap = gapRecords p

theorem wrote_nothing (hpush : events <+: pushEvents o)
    (htrace : m'.trace = m.trace ++ events) : Wrote m p m' [] [] where
  records := by rw [written_of_trace htrace, logWrites_pushed hpush]; rfl
  gap_prefix := List.nil_prefix
  body_prefix := List.nil_prefix
  straight := fun _ => rfl
  filled := fun _ hne => absurd rfl hne

theorem wrote_gap (hwraps : p.wraps = true)
    (hpre : events <+: (gapRecords p).map Event.log)
    (htrace : m'.trace = m.trace ++ pushEvents m.overlay ++ events) :
    Wrote m p m' (logWrites events) [] where
  records := by
    rw [List.append_assoc] at htrace
    rw [written_of_trace htrace, logWrites_append, logWrites_pushed (List.prefix_refl _),
      List.nil_append, List.append_nil]
  gap_prefix := prefix_map_log hpre
  body_prefix := List.nil_prefix
  straight := fun hno => by simp [hwraps] at hno
  filled := fun _ hne => absurd rfl hne

def gapBefore (p : Plan) : List LogRecord :=
  if p.wraps then gapRecords p else []

theorem entered_trace (m : Mount) (p : Plan) :
    ∃ events, (m.entered p).trace = m.trace ++ events ∧ logWrites events = gapBefore p := by
  unfold entered gapBefore
  split
  · refine ⟨pushEvents m.overlay ++ (gapRecords p).map .log, ?_, ?_⟩
    · exact List.append_assoc m.trace _ _
    · rw [logWrites_append, logWrites_pushed (List.prefix_refl _), logWrites_log, List.nil_append]
  · exact ⟨[], (List.append_nil _).symm, rfl⟩

theorem wrote_of_entered {records events : List Event}
    (hrec : records <+: (m.recordsOf p).map Event.log) (hpush : events <+: pushEvents o)
    (htrace : m'.trace = (m.entered p).trace ++ records ++ events) :
    Wrote m p m' (gapBefore p) (logWrites records) := by
  obtain ⟨before, hbefore, hgap⟩ := entered_trace m p
  have htrace' : m'.trace = m.trace ++ (before ++ records ++ events) := by
    rw [htrace, hbefore]
    simp only [List.append_assoc]
  refine ⟨?_, ?_, prefix_map_log hrec, ?_, ?_⟩
  · rw [written_of_trace htrace', logWrites_append, logWrites_append, hgap, logWrites_pushed hpush,
      List.append_nil]
  · unfold gapBefore
    split
    · exact List.prefix_refl _
    · exact List.nil_prefix
  · intro hno
    rw [gapBefore, hno, if_neg Bool.false_ne_true]
  · intro hyes _
    rw [gapBefore, if_pos hyes]

theorem commitRecord_ok_wrote {lsn : ℕ} (hplan : m.plan build = .ok p)
    (h : commitRecord build m = .ok lsn m') : Wrote m p m' (gapBefore p) (m.recordsOf p) := by
  obtain ⟨p', hplan', -, -, -, -, -, -, rfl⟩ := commitRecord_eq_ok h
  obtain rfl : p = p' := Except.ok.inj (hplan.symm.trans hplan')
  rw [← logWrites_log (m.recordsOf p)]
  split
  · exact wrote_of_entered (List.prefix_refl _) (List.prefix_refl (pushEvents (m.entered p).overlay))
      rfl
  · exact wrote_of_entered (o := .empty) (List.prefix_refl _) List.nil_prefix
      (List.append_nil _).symm

theorem stopped_wrote (h : Stopped m p e m') : ∃ body, Wrote m p m' (gapBefore p) body := by
  cases h with
  | tooLarge =>
    exact ⟨_, wrote_of_entered (o := .empty) List.nil_prefix List.nil_prefix (by simp)⟩
  | offStripe =>
    exact ⟨_, wrote_of_entered (o := .empty) List.nil_prefix List.nil_prefix (by simp)⟩
  | record hfits hio hpre =>
    exact ⟨_, wrote_of_entered (o := .empty) hpre List.nil_prefix (List.append_nil _).symm⟩
  | push hfits hbound hio hpre => exact ⟨_, wrote_of_entered (List.prefix_refl _) hpre rfl⟩

theorem commitRecord_error_wrote (hplan : m.plan build = .ok p)
    (h : commitRecord build m = .error e m') :
    ∃ gap body, Wrote m p m' gap body ∧
      (gap ≠ [] → m.writeFailed = false ∧ m.writable = true) := by
  rcases commitRecord_eq_error h with ⟨rfl, -⟩ | ⟨p', hplan', hfail, hwr, hlater⟩
  · refine ⟨[], [], wrote_nothing (o := .empty) List.nil_prefix (List.append_nil _).symm, ?_⟩
    exact fun hne => absurd rfl hne
  obtain rfl : p = p' := Except.ok.inj (hplan.symm.trans hplan')
  have hlive : ∀ gap : List LogRecord, gap ≠ [] → m.writeFailed = false ∧ m.writable = true :=
    fun _ _ => ⟨hfail, hwr⟩
  rcases hlater with ⟨hwraps, hwrap⟩ | ⟨-, hstop⟩
  · rcases wrapRing_eq_error hfail hwr hwrap with
      ⟨-, events, hpre, rfl⟩ | hpad | ⟨-, -, -, -, -, rfl⟩
    · exact ⟨[], [], wrote_nothing hpre rfl, hlive _⟩
    · rcases padGap_eq_error hpad with
        ⟨-, -, -, rfl⟩ | ⟨-, -, rfl⟩ | ⟨-, -, -, events, hpre, rfl⟩
      · exact ⟨[], [], wrote_nothing (List.prefix_refl (pushEvents m.overlay)) rfl, hlive _⟩
      · exact ⟨[], [], wrote_nothing (List.prefix_refl (pushEvents m.overlay)) rfl, hlive _⟩
      · exact ⟨_, [], wrote_gap hwraps hpre rfl, hlive _⟩
    · exact ⟨_, [], wrote_gap hwraps (List.prefix_refl _) rfl, hlive _⟩
  · obtain ⟨body, hbody⟩ := stopped_wrote hstop
    exact ⟨_, body, hbody, hlive _⟩

/-! ## When everything is in its place -/

/-- What a commit is to do with the log: no panic; the records written, on whatever device, in the
ring and within an in-core buffer, end to end from the head chosen; and when that is the start of
the ring, the blocks left before it filled to the last. -/
structure WellPlaced (m : Mount) (p : Plan) (result : EStateM.Result Error Mount ℕ) : Prop where
  noPanic : ∀ e m', result = .error e m' → e.isPanic = false
  inRing : ∀ r ∈ written m (finalState result),
    r.block + r.blocks ≤ p.head.block + p.head.freeBlocks
  payload : ∃ cap, maxPayload p.head.iclogSize = .ok cap ∧
    ∀ r ∈ written m (finalState result), r.len ≤ cap
  contiguous : ∃ gap body, written m (finalState result) = gap ++ body ∧
    Chain p.head.block gap ∧ Chain (chosenHead p).block body ∧
    (p.wraps = false → gap = []) ∧
    (p.wraps = true → body ≠ [] → span gap = p.head.freeBlocks) ∧
    ∀ lsn m', result = .ok lsn m' → body ≠ [] ∧ span body = p.needed

theorem recordsOf_chain {cap : ℕ} (hp : Planned m build p)
    (hcap : maxPayload p.head.iclogSize = .ok cap) :
    Chain (chosenHead p).block (m.recordsOf p) ∧ span (m.recordsOf p) = p.needed ∧
      ∀ r ∈ m.recordsOf p, r.len ≤ cap := by
  rw [← chosenHead_iclogSize] at hcap
  have hsized := hp.sized
  rw [← chosenHead_iclogSize] at hsized
  rw [← hp.blocks]
  exact placed_chain hcap hsized

theorem chosenHead_room (hring : p.needed ≤ p.head.block + p.head.freeBlocks) :
    (chosenHead p).block + p.needed ≤ p.head.block + p.head.freeBlocks := by
  unfold chosenHead
  cases hwraps : p.wraps with
  | true =>
    exact (Nat.zero_add p.needed).le.trans hring
  | false =>
    rw [if_neg Bool.false_ne_true]
    simp only [Plan.wraps, wrapsFirst, Bool.or_eq_false_iff, decide_eq_false_iff_not] at hwraps
    omega

theorem wellPlaced_of_wrote {result : EStateM.Result Error Mount ℕ} {gap body : List LogRecord}
    (hp : Planned m build p) (hring : p.needed ≤ p.head.block + p.head.freeBlocks)
    (hw : Wrote m p (finalState result) gap body)
    (hpad : gap ≠ [] → p.head.freeBlocks * 512 ≤ p.head.iclogSize)
    (hpanic : ∀ e m', result = .error e m' → e.isPanic = false)
    (hall : ∀ lsn m', result = .ok lsn m' → body = m.recordsOf p) : WellPlaced m p result := by
  obtain ⟨cap, hcap⟩ := hp.fits
  have hsize := maxPayload_spec hcap
  obtain ⟨hgapChain, hgapSpan⟩ := gapRecords_chain hsize.1
  obtain ⟨hchain, hspan, hlen⟩ := recordsOf_chain hp hcap
  have hroom := chosenHead_room hring
  have hgap : Chain p.head.block gap := by
    obtain ⟨rest, hrest⟩ := hw.gap_prefix
    exact (chain_append.mp (hrest ▸ hgapChain)).1
  have hbody : Chain (chosenHead p).block body := by
    obtain ⟨rest, hrest⟩ := hw.body_prefix
    exact (chain_append.mp (hrest ▸ hchain)).1
  have hgapLe := span_le_of_prefix hw.gap_prefix
  have hbodyLe := span_le_of_prefix hw.body_prefix
  refine ⟨hpanic, ?_, ⟨cap, hcap, ?_⟩, gap, body, hw.records, hgap, hbody, hw.straight, ?_, ?_⟩
  · rw [hw.records]
    intro r hr
    rcases List.mem_append.mp hr with hr | hr
    · have := hgap.end_le r hr
      omega
    · have := hbody.end_le r hr
      omega
  · rw [hw.records]
    intro r hr
    rcases List.mem_append.mp hr with hr | hr
    · have hfit := hpad (List.ne_nil_of_mem hr)
      have hmem := hw.gap_prefix.subset hr
      unfold gapRecords at hmem
      split at hmem
      · rw [List.mem_singleton.mp hmem]
        change (p.head.freeBlocks - 1) * 512 ≤ cap
        omega
      · cases hmem
    · exact hlen r (hw.body_prefix.subset hr)
  · intro hwraps hne
    rw [hw.filled hwraps hne, hgapSpan]
  · intro lsn m' hok
    rw [hall lsn m' hok]
    refine ⟨?_, hspan⟩
    intro hnil
    have hparts := hp.nonempty
    unfold recordsOf at hnil
    cases hp' : p.parts with
    | nil => exact hparts hp'
    | cons part parts =>
      rw [hp'] at hnil
      exact absurd hnil (by simp [placed])

theorem commitRecord_panic (hplan : m.plan build = .ok p) (h : commitRecord build m = .error e m')
    (hpanic : e.isPanic = true) :
    m.writeFailed = false ∧ m.writable = true ∧ p.wraps = true ∧ 65 < p.head.freeBlocks := by
  rcases commitRecord_eq_error h with ⟨-, hplan' | ⟨hno, -⟩⟩ | ⟨p', hplan', hfail, hwr, hlater⟩
  · cases hplan.symm.trans hplan'
  · exact absurd hpanic (by simp [hno])
  obtain rfl : p = p' := Except.ok.inj (hplan.symm.trans hplan')
  rcases hlater with ⟨hwraps, hwrap⟩ | ⟨-, hstop⟩
  · refine ⟨hfail, hwr, hwraps, ?_⟩
    rcases wrapRing_eq_error hfail hwr hwrap with ⟨hio, -⟩ | hpad | ⟨hno, -⟩
    · exact absurd hpanic (by simp [hio.isPanic])
    · rcases padGap_eq_error hpad with ⟨-, hno, -⟩ | ⟨hlarge, -⟩ | ⟨-, -, hio, -⟩
      · exact absurd hpanic (by simp [hno])
      · exact hlarge
      · exact absurd hpanic (by simp [hio.isPanic])
    · exact absurd hpanic (by simp [hno])
  · cases hstop with
    | tooLarge _ hno _ => exact absurd hpanic (by simp [hno])
    | offStripe _ hno _ => exact absurd hpanic (by simp [hno])
    | record _ hio _ => exact absurd hpanic (by simp [hio.isPanic])
    | push _ _ hio _ => exact absurd hpanic (by simp [hio.isPanic])

theorem gapRecords_written (hplan : m.plan build = .ok p) (hrel : m.Reliable)
    (hfail : m.writeFailed = false) (hwr : m.writable = true) (hwraps : p.wraps = true)
    (hone : p.head.freeBlocks ≠ 1)
    (hpanic : ∀ e m', commitRecord build m = .error e m' → e.isPanic = false) :
    ∀ r ∈ gapRecords p, r ∈ written m (finalState (commitRecord build m)) := by
  have hbefore : gapBefore p = gapRecords p := if_pos hwraps
  cases hres : commitRecord build m with
  | ok lsn m' =>
    have hw := commitRecord_ok_wrote hplan hres
    intro r hr
    rw [finalState, hw.records, hbefore]
    exact List.mem_append_left _ hr
  | error e m' =>
    rcases commitRecord_eq_error hres with ⟨-, hplan' | ⟨-, hf | hf⟩⟩ | ⟨p', hplan', -, -, hlater⟩
    · cases hplan.symm.trans hplan'
    · exact absurd hf (by simp [hfail])
    · exact absurd hf (by simp [hwr])
    obtain rfl : p = p' := Except.ok.inj (hplan.symm.trans hplan')
    rcases hlater with ⟨-, hwrap⟩ | ⟨-, hstop⟩
    · rcases wrapRing_eq_error hfail hwr hwrap with ⟨hio, -⟩ | hpad | ⟨-, -, -, -, -, rfl⟩
      · exact absurd hrel hio.2
      · rcases padGap_eq_error hpad with ⟨hf, -⟩ | ⟨-, hf, -⟩ | ⟨-, -, hio, -⟩
        · exact absurd hf hone
        · exact absurd hf (by simp [hpanic e m' hres])
        · exact absurd hrel hio.2
      · have hw := wrote_gap hwraps (List.prefix_refl _)
          (show (m.settle.emit ((gapRecords p).map .log)).trace =
            m.trace ++ pushEvents m.overlay ++ (gapRecords p).map .log from rfl)
        intro r hr
        rw [finalState, hw.records, logWrites_log, List.append_nil]
        exact hr
    · obtain ⟨body, hw⟩ := stopped_wrote hstop
      intro r hr
      rw [finalState, hw.records, hbefore]
      exact List.mem_append_left _ hr

def onDevice (m : Mount) (outcome : ℕ → Outcome) (flushes : ℕ → Bool) : Mount :=
  { m with outcome := outcome, flushes := flushes }

/-- For a checkpoint whose records fit the ring, everything a commit writes is in its place on every
device exactly when it does not wrap, or the gap at the end of the ring, header block included, is
no longer than one in-core buffer. -/
theorem commit_places_records_iff (hplan : m.plan build = .ok p)
    (hring : p.needed ≤ p.head.block + p.head.freeBlocks) :
    (∀ outcome flushes, WellPlaced (m.onDevice outcome flushes) p
        (commitRecord build (m.onDevice outcome flushes))) ↔
      (m.writeFailed = false → m.writable = true → p.wraps = true →
        p.head.freeBlocks * 512 ≤ p.head.iclogSize) := by
  constructor
  · intro hall hfail hwr hwraps
    have hplaced := hall (fun _ => .done) (fun _ => true)
    obtain ⟨cap, hcap, hlen⟩ := hplaced.payload
    have hsize := maxPayload_spec hcap
    by_contra hlarge
    have hone : p.head.freeBlocks ≠ 1 := by omega
    have hpad := gapRecords_written (m := m.onDevice (fun _ => .done) fun _ => true) hplan
      ⟨fun _ => rfl, fun _ => rfl⟩ hfail hwr hwraps hone hplaced.noPanic
    have hmem : padRecord p.head p.tid (lsnOf p.head) ∈ gapRecords p := by
      rw [gapRecords, if_pos (by omega)]
      exact List.mem_singleton_self _
    have hle : (p.head.freeBlocks - 1) * 512 ≤ cap := hlen _ (hpad _ hmem)
    omega
  · intro hcond outcome flushes
    have hplan' : (m.onDevice outcome flushes).plan build = .ok p := hplan
    have hp := plan_spec hplan'
    have hpanic : ∀ e m', commitRecord build (m.onDevice outcome flushes) = .error e m' →
        e.isPanic = false := by
      intro e m' hres
      by_contra hp'
      obtain ⟨hfail, hwr, hwraps, hlarge⟩ :=
        commitRecord_panic hplan' hres (Bool.eq_true_of_not_eq_false hp')
      obtain ⟨cap, hcap⟩ := hp.fits
      have := hcond hfail hwr hwraps
      have := (maxPayload_spec hcap).1
      omega
    cases hres : commitRecord build (m.onDevice outcome flushes) with
    | ok lsn m' =>
      obtain ⟨-, -, hfail, hwr, -⟩ := commitRecord_eq_ok hres
      have hw := commitRecord_ok_wrote hplan' hres
      refine wellPlaced_of_wrote hp hring hw ?_ (by simp) (fun _ _ _ => rfl)
      intro hne
      refine hcond hfail hwr ?_
      cases hwraps : p.wraps with
      | true => rfl
      | false => exact absurd (hw.straight hwraps) hne
    | error e m' =>
      obtain ⟨gap, body, hw, hlive⟩ := commitRecord_error_wrote hplan' hres
      refine wellPlaced_of_wrote hp hring hw ?_ (hres ▸ hpanic) (by simp)
      intro hne
      obtain ⟨hfail, hwr⟩ := hlive hne
      refine hcond hfail hwr ?_
      cases hwraps : p.wraps with
      | true => rfl
      | false => exact absurd (hw.straight hwraps) hne

/-! ## A gap longer than a buffer -/

def longLog : Superblock :=
  { twoGroups with dblocks := 128, agblocks := 64, agblklog := 6, logblocks := 34 }

def longLogVolume : Mount :=
  fresh longLog .blank fun _ => 0

-- as long as one buffer
def shortLogVolume : Mount :=
  fresh { longLog with logblocks := 32 } .blank fun _ => 0

def blocksOfOps (n : ℕ) : ℕ → List Op := fun _ =>
  List.replicate n ⟨0, List.replicate 500 0⟩

theorem plan_on_new_log {n needed free : ℕ} {wraps : Bool}
    (h : (m.plan (blocksOfOps n)).map (fun p => (p.needed, p.wraps, p.head)) =
      .ok (needed, wraps, ⟨0, 1, 2 ^ 32 - 1, free, 32768⟩)) :
    ∃ p, m.plan (blocksOfOps n) = .ok p ∧ p.needed = needed ∧ p.wraps = wraps ∧
      p.head = ⟨0, 1, 2 ^ 32 - 1, free, 32768⟩ := by
  cases hplan : m.plan (blocksOfOps n) with
  | error e => simp [hplan, Except.map] at h
  | ok p =>
    simp only [hplan, Except.map, Except.ok.injEq, Prod.mk.injEq] at h
    exact ⟨p, rfl, h⟩

/-- A checkpoint of 63 blocks would leave one of the 64 blocks of a new log, so the ring is begun
again, and the pad over the whole of it is one buffer. On any device all is in its place. -/
theorem pad_of_a_buffer_is_in_place :
    ∃ p, shortLogVolume.plan (blocksOfOps 62) = .ok p ∧ p.wraps = true ∧
      ∀ outcome flushes, WellPlaced (shortLogVolume.onDevice outcome flushes) p
        (commitRecord (blocksOfOps 62) (shortLogVolume.onDevice outcome flushes)) := by
  obtain ⟨p, hplan, hneeded, hwraps, hhead⟩ :=
    @plan_on_new_log shortLogVolume 62 63 64 true (by decide +kernel)
  refine ⟨p, hplan, hwraps, (commit_places_records_iff hplan ?_).mpr fun _ _ _ => ?_⟩
  · rw [hneeded, hhead]
    decide
  · rw [hhead]
    exact le_refl _

/-- A checkpoint of 67 blocks would leave one of the 68 blocks of a new log, so the ring is begun
again, and the pad over the whole of it is more than a record header can describe. -/
theorem pad_over_a_new_log_panics :
    ∃ p, longLogVolume.plan (blocksOfOps 65) = .ok p ∧
      p.needed ≤ p.head.block + p.head.freeBlocks ∧
      ¬WellPlaced longLogVolume p (commitRecord (blocksOfOps 65) longLogVolume) := by
  obtain ⟨p, hplan, hneeded, -, hhead⟩ :=
    @plan_on_new_log longLogVolume 65 67 68 true (by decide +kernel)
  refine ⟨p, hplan, by rw [hneeded, hhead]; decide, ?_⟩
  intro hplaced
  have hpanic : (match commitRecord (blocksOfOps 65) longLogVolume with
    | .error e _ => e.isPanic
    | .ok _ _ => false) = true := by decide +kernel
  cases hres : commitRecord (blocksOfOps 65) longLogVolume with
  | ok lsn m' => simp [hres] at hpanic
  | error e m' =>
    rw [hres] at hpanic
    exact absurd hpanic (by simp [hplaced.noPanic e m' hres])

end FsXfs.Mount
