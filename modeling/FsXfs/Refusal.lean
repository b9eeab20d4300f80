import FsXfs.Commit

/-!
# What a refused commit leaves behind

`commit_record` checks some things before it places anything and others after it has begun the ring
again. A refusal of the first kind leaves the mount as it was. One of the second kind comes after
the push, the pad record or the new wrap count, and those stay.
-/

namespace FsXfs.Mount

open Log StateProg

set_option autoImplicit false

variable {m m' : Mount} {e : Error} {build : ℕ → List Op}

-- an error that is neither a panic nor the device's; a stopped mount answers with an `Io` of its own
def Refusal (m : Mount) (e : Error) : Prop :=
  e.isPanic = false ∧ (e.isIo = true → m.writeFailed = true)

/-- Nothing was written, what the mount remembers of its log is what it was, and every checkpoint
asked for next gets the answer it would have got. -/
structure Untouched (m m' : Mount) : Prop where
  written : m'.trace = m.trace
  nextHead : m'.nextHead = m.nextHead
  oldestRecord : m'.oldestRecord = m.oldestRecord
  wraps : m'.wraps = m.wraps
  next : ∀ build, answer (commitRecord build m') = answer (commitRecord build m)

def FullInLastCycle (m : Mount) (p : Plan) : Prop :=
  p.wraps = true ∧ p.head.freeBlocks = 0 ∧ 2 ^ 32 ≤ p.head.cycle + 1 ∧
    m.overlay = .empty ∧ m.oldestRecord = none

theorem Untouched.rfl : Untouched m m :=
  ⟨.refl _, .refl _, .refl _, .refl _, fun _ => .refl _⟩

theorem pushEvents_eq_nil {o : Overlay} : pushEvents o = [] ↔ o = .empty := by
  rw [pushEvents, List.map_eq_nil_iff, Overlay.pushed, List.map_eq_nil_iff]
  constructor
  · intro h
    have hkeys : o.logged.keys = [] := by
      have hlen := List.length_insertionSort (fun a b : ℕ => a ≤ b) o.logged.keys
      rw [h] at hlen
      exact List.eq_nil_of_length_eq_zero hlen.symm
    exact congrArg Overlay.mk (AList.ext (List.map_eq_nil_iff.mp hkeys))
  · rintro rfl
    rfl

theorem settle_eq_self (hover : m.overlay = .empty) (hold : m.oldestRecord = none) :
    m.settle = m := by
  rw [settle, pushEvents_eq_nil.mpr hover, emit_nil, ← hover, ← hold]

theorem commitRecord_of_writeFailed (h : m.writeFailed = true) (build : ℕ → List Op) :
    ∃ why, commitRecord build m = .error (.io why) m := by
  have hdev : writableDevice m = .error (.io _) m := if_pos h
  exact ⟨_, seq_eq_error.mpr (.inl hdev)⟩

theorem not_untouched_of_stopped {m₁ : Mount} (h : commitRecord build m = .error e m₁) (hio : e.isIo = false)
    (hstop : m'.writeFailed = true) : ¬Untouched m m' := by
  intro hsame
  obtain ⟨why, hwhy⟩ := commitRecord_of_writeFailed hstop build
  have hnext := hsame.next build
  rw [hwhy, h] at hnext
  simp only [answer, Except.error.injEq] at hnext
  rw [← hnext] at hio
  exact absurd hio (by simp [Error.isIo])

theorem not_untouched_of_emit {events : List Event} (hne : events ≠ [])
    (htrace : m'.trace = m.trace ++ events) : ¬Untouched m m' := by
  intro hsame
  have hwritten := hsame.written
  rw [htrace] at hwritten
  exact hne (List.append_right_eq_self.mp hwritten)

theorem untouched_settle_iff :
    Untouched m m.settle ↔ m.overlay = .empty ∧ m.oldestRecord = none := by
  constructor
  · intro hsame
    refine ⟨?_, hsame.oldestRecord.symm⟩
    by_contra hne
    exact not_untouched_of_emit (fun h => hne (pushEvents_eq_nil.mp h)) rfl hsame
  · rintro ⟨hover, hold⟩
    rw [settle_eq_self hover hold]
    exact .rfl

theorem gapRecords_eq_nil {p : Plan} : gapRecords p = [] ↔ p.head.freeBlocks = 0 := by
  unfold gapRecords
  split
  · simp
    omega
  · simp
    omega

/-- A wrap that is refused leaves the mount untouched only when there was no gap to fill, nothing to
push and no record outstanding. -/
theorem untouched_iff_of_wrapRing {p : Plan}
    (h : commitRecord build m = .error e m') (hr : Refusal m e) (hfail : m.writeFailed = false)
    (hwr : m.writable = true) (hwraps : p.wraps = true) (hwrap : wrapRing p m = .error e m') :
    Untouched m m' ↔ FullInLastCycle m p := by
  obtain ⟨hpanic, hdevice⟩ := hr
  have hio : e.isIo = false := by
    cases hio : e.isIo with
    | false => rfl
    | true => exact absurd (hdevice hio) (by simp [hfail])
  rcases wrapRing_eq_error hfail hwr hwrap with ⟨⟨hio', -⟩, -⟩ | hpad | ⟨-, -, -, -, hcycle, rfl⟩
  · exact absurd hio' (by simp [hio])
  · rcases padGap_eq_error hpad with ⟨hone, -, -, rfl⟩ | ⟨-, hp, -⟩ | ⟨-, -, ⟨hio', -⟩, -⟩
    · refine iff_of_false (not_untouched_of_stopped h hio rfl) ?_
      rintro ⟨-, hzero, -⟩
      omega
    · exact absurd hp (by simp [hpanic])
    · exact absurd hio' (by simp [hio])
  · by_cases hzero : p.head.freeBlocks = 0
    · rw [gapRecords_eq_nil.mpr hzero, List.map_nil, emit_nil, untouched_settle_iff]
      exact ⟨fun ⟨hover, hold⟩ => ⟨hwraps, hzero, hcycle, hover, hold⟩,
        fun ⟨_, _, _, hover, hold⟩ => ⟨hover, hold⟩⟩
    · refine iff_of_false ?_ (fun hfull => hzero hfull.2.1)
      have hgap : (gapRecords p).map Event.log ≠ [] := by
        rw [Ne, List.map_eq_nil_iff, gapRecords_eq_nil]
        exact hzero
      refine not_untouched_of_emit ?_ (List.append_assoc _ _ _)
      exact fun hnil => hgap (List.append_eq_nil_iff.mp hnil).2

theorem not_untouched_of_stopped_later {p : Plan} (h : commitRecord build m = .error e m')
    (hr : Refusal m e) (hfail : m.writeFailed = false) (hstop : Stopped m p e m') :
    ¬Untouched m m' := by
  cases hstop with
  | tooLarge hlarge hpanic hio =>
    unfold chosenHead at hlarge
    unfold entered
    cases hwraps : p.wraps with
    | true =>
      intro hsame
      have hcount := hsame.wraps
      simp [wrapped] at hcount
    | false =>
      rw [hwraps, if_neg Bool.false_ne_true] at hlarge
      simp [Plan.wraps, wrapsFirst, hlarge] at hwraps
  | offStripe hmis hpanic hio => exact not_untouched_of_stopped h hio rfl
  | record hfits hio hpre => exact absurd (hr.2 hio.1) (by simp [hfail])
  | push hfits hbound hio hpre => exact absurd (hr.2 hio.1) (by simp [hfail])

/-- A refused checkpoint leaves the mount untouched exactly when it is refused before it is placed,
or when it would wrap a log that is full to its last block in its last cycle with nothing to push. -/
theorem refused_commit_changes_nothing_iff (h : commitRecord build m = .error e m')
    (hr : Refusal m e) :
    Untouched m m' ↔
      m.writeFailed = true ∨ m.writable = false ∨ (∃ why, m.plan build = .error why) ∨
        ∃ p, m.plan build = .ok p ∧ FullInLastCycle m p := by
  rcases commitRecord_eq_error h with ⟨rfl, hearly⟩ | ⟨p, hplan, hfail, hwr, hlater⟩
  · refine iff_of_true .rfl ?_
    rcases hearly with hplan | ⟨-, hfail | hwr⟩
    · exact .inr (.inr (.inl ⟨e, hplan⟩))
    · exact .inl hfail
    · exact .inr (.inl hwr)
  · have hcond : (m.writeFailed = true ∨ m.writable = false ∨ (∃ why, m.plan build = .error why) ∨
        ∃ p, m.plan build = .ok p ∧ FullInLastCycle m p) ↔ FullInLastCycle m p := by
      simp [hfail, hwr, hplan]
    rw [hcond]
    rcases hlater with ⟨hwraps, hwrap⟩ | ⟨hcan, hstop⟩
    · exact untouched_iff_of_wrapRing h hr hfail hwr hwraps hwrap
    · refine iff_of_false (not_untouched_of_stopped_later h hr hfail hstop) ?_
      rintro ⟨hwraps, -, hcycle, -⟩
      exact absurd (hcan hwraps).2.2 (by omega)

/-! ## On an 8 KiB log -/

def blankVolume : Mount :=
  fresh twoGroups .blank fun _ => 0

def firstCheckpoint (n size : ℕ) : EStateM.Result Error Mount ℕ :=
  commitRecord (fun _ => List.replicate n ⟨0, List.replicate size 0⟩) blankVolume

theorem firstCheckpoint_refused {n size : ℕ} {check : Mount → Bool}
    (h : (match firstCheckpoint n size with
      | .error e m' => !e.isPanic && !e.isIo && check m'
      | .ok _ _ => false) = true) :
    ∃ e m', firstCheckpoint n size = .error e m' ∧ Refusal blankVolume e ∧ check m' = true := by
  cases hres : firstCheckpoint n size with
  | ok lsn m' => simp [hres] at h
  | error e m' =>
    simp only [hres, Bool.and_eq_true, Bool.not_eq_true'] at h
    exact ⟨e, m', rfl, ⟨h.1.1, fun hio => absurd hio (by simp [h.1.2])⟩, h.2⟩

/-- An operation of 7680 bytes does not fit any record, which is found before anything is placed. -/
theorem oversized_operation_changes_nothing :
    ∃ e m', firstCheckpoint 1 7680 = .error e m' ∧ Refusal blankVolume e ∧
      Untouched blankVolume m' := by
  obtain ⟨e, m', h, hr, -⟩ :=
    @firstCheckpoint_refused 1 7680 (fun _ => true) (by decide +kernel)
  refine ⟨e, m', h, hr, (refused_commit_changes_nothing_iff h hr).mpr (.inr (.inr (.inl ?_)))⟩
  have hno : (blankVolume.plan fun _ => List.replicate 1 ⟨0, List.replicate 7680 0⟩).toBool =
      false := by decide +kernel
  cases hplan : blankVolume.plan fun _ => List.replicate 1 ⟨0, List.replicate 7680 0⟩ with
  | ok p =>
    rw [hplan] at hno
    exact absurd hno (by simp [Except.toBool])
  | error why => exact ⟨why, rfl⟩

/-- Two records of 15 blocks do not fit a log of 16. The refusal comes after the ring was begun
again, so the pad record is on the device and the wrap is counted. -/
theorem oversized_first_checkpoint_counts_a_wrap :
    ∃ e m', firstCheckpoint 2 7000 = .error e m' ∧ Refusal blankVolume e ∧
      ¬Untouched blankVolume m' := by
  obtain ⟨e, m', h, hr, hwraps⟩ := @firstCheckpoint_refused 2 7000
    (fun m' => decide (m'.wraps = 1 ∧ m'.trace.length = 1)) (by decide +kernel)
  refine ⟨e, m', h, hr, ?_⟩
  intro hsame
  have hcount := hsame.wraps
  rw [(of_decide_eq_true hwraps).1] at hcount
  exact absurd hcount (by decide)

end FsXfs.Mount
