import FsXfs.Logbook

/-!
# Runs of a journalling mount

A run is any sequence of journalled operations and syncs on a writable mount, on a device that may
fail any write. A journalled operation commits its record and then puts the record's items in the
overlay; the trace marks the moment it returns. A crash is a cut of the trace.

One step can break them: a commit that pushes because the overlay has reached its bound forgets the
tail before the caller has put the new items in the overlay.
-/

namespace FsXfs.Mount

open Log Redo StateProg Cut

set_option autoImplicit false

/-! ## Operations -/

/-- What a journalled operation logs: a transaction, with every logged byte inside its item's image. -/
structure Operation (decode : List (List UInt8) → List Item) extends Checkpoint decode where
  inside : ∀ item ∈ items, item.Inside

def Operation.Uncancelled {decode : List (List UInt8) → List Item} (op : Operation decode) : Prop :=
  ∀ item ∈ op.items, item.cancel = false

section

variable {decode : List (List UInt8) → List Item}

def operate (op : Operation decode) : Prog ℕ := do
  let lsn ← commitRecord op.build
  modify fun m => (m.loggedItems op.items).emit [.returned lsn op.items]
  pure lsn

inductive Step (decode : List (List UInt8) → List Item) where
  | operation (op : Operation decode)
  | sync

def step (m : Mount) : Step decode → Mount
  | .operation op => finalState (operate op m)
  | .sync => finalState (sync m)

def run (m : Mount) (steps : List (Step decode)) : Mount :=
  steps.foldl step m

end

/-! ## What a crash finds -/

def returnedOps (events : List Event) : List (ℕ × List Item) :=
  events.filterMap Event.returned?

def redo (ops : List (ℕ × List Item)) : List (Patch ℕ UInt8) :=
  ops.flatMap fun op => op.2.flatMap Item.patches

def AtLeast (before : ℕ → UInt8) (ops : List (ℕ × List Item)) (n : ℕ) (home : ℕ → UInt8) : Prop :=
  ∀ a, ∃ k, n ≤ k ∧ home a = applyAll (redo (ops.take k)) before a

/-- What must hold of the disk at every moment: the operations that have returned are on the home
blocks up to one of them, and the rest are in the log from the tail on; and a replay leaves the
disk as all of them in order make it, with at most one operation more, which had not returned. -/
structure Survives (decode : List (List UInt8) → List Item) (before : ℕ → UInt8) (total : ℕ)
    (asked : List (List Item)) (returned : List (ℕ × List Item)) (disk : Disk) : Prop where
  placed : ∃ old live, returned = old ++ live ∧ AtLeast before returned old.length disk.home ∧
    ∀ op ∈ live, Logged decode total disk.ring op
  recovered : ∃ extra, (extra = [] ∨ ∃ items ∈ asked, extra = [(0, items)]) ∧
    recover decode disk total = .ok (applyAll (redo (returned ++ extra)) before)

/-! ## Replaying over what is there -/

theorem redo_append (as bs : List (ℕ × List Item)) : redo (as ++ bs) = redo as ++ redo bs :=
  List.flatMap_append

theorem covers_redo_of_subset {as bs : List (ℕ × List Item)} (h : as ⊆ bs) {a : ℕ}
    (hcov : Covers (redo as) a) : Covers (redo bs) a := by
  obtain ⟨p, hp, hsome⟩ := hcov
  obtain ⟨op, hop, hp⟩ := List.mem_flatMap.mp hp
  exact ⟨p, List.mem_flatMap.mpr ⟨op, h hop, hp⟩, hsome⟩

variable {home before : ℕ → UInt8}

variable {old live ops : List (ℕ × List Item)}

theorem AtLeast.agrees (h : AtLeast before (old ++ live) old.length home) {a : ℕ}
    (ha : ¬Covers (redo live) a) :
    home a = applyAll (redo old) before a := by
  obtain ⟨k, hk, hhome⟩ := h a
  have hcut : (old ++ live).take k = old ++ live.take (k - old.length) := by
    rw [List.take_append, List.take_of_length_le hk]
  have hnot : ¬Covers (redo (live.take (k - old.length))) a :=
    fun hcov => ha (covers_redo_of_subset (List.take_subset _ _) hcov)
  rw [hhome, hcut, redo_append, applyAll_append, applyAll_of_not_covers hnot]

theorem AtLeast.append {n : ℕ} (h : AtLeast before ops n home) (hn : n ≤ ops.length)
    (op : ℕ × List Item) :
    AtLeast before (ops ++ [op]) n home := by
  intro a
  obtain ⟨k, hk, hhome⟩ := h a
  refine ⟨min k ops.length, by omega, ?_⟩
  rw [List.take_append_of_le_length (Nat.min_le_right _ _), hhome]
  by_cases hle : k ≤ ops.length
  · rw [Nat.min_eq_left hle]
  · rw [Nat.min_eq_right (by omega), List.take_of_length_le (by omega), List.take_length]

theorem atLeast_all (h : home = applyAll (redo ops) before) :
    AtLeast before ops ops.length home := by
  intro a
  exact ⟨ops.length, le_refl _, by rw [List.take_length, h]⟩

theorem recover_eq {decode : List (List UInt8) → List Item} {total : ℕ} {disk : Disk}
    {extra : List (ℕ × List Item)} {transactions : List (List Op)}
    (hhome : AtLeast before (old ++ live) old.length disk.home)
    (hout : outstanding disk.ring total = .ok transactions)
    (hitems : transactions.flatMap (itemsOf decode) = (live ++ extra).flatMap Prod.snd)
    (hno : ∀ op ∈ live ++ extra, ∀ item ∈ op.2, item.cancel = false) :
    recover decode disk total = .ok (applyAll (redo (old ++ live ++ extra)) before) := by
  have hno' : ∀ item ∈ (live ++ extra).flatMap Prod.snd, item.cancel = false := by
    intro item hitem
    obtain ⟨op, hop, hitem⟩ := List.mem_flatMap.mp hitem
    exact hno op hop item hitem
  have hredo : ((live ++ extra).flatMap Prod.snd).flatMap Item.patches = redo (live ++ extra) :=
    List.flatMap_assoc
  rw [recover_of_outstanding decode hout, hitems, replayItems_of_no_cancel hno', hredo,
    List.append_assoc old, redo_append old, applyAll_append]
  congr 1
  apply applyAll_congr
  intro a ha
  apply hhome.agrees
  exact fun hcov => ha (covers_redo_of_subset (List.subset_append_left _ _) hcov)

/-! ## Between two steps -/

section

variable {decode : List (List UInt8) → List Item} {asked : List (List Item)}
  {m m' : Mount} {old live kept : List (ℕ × List Item)} {op : Operation decode}

structure Mirror (m : Mount) (old live : List (ℕ × List Item)) : Prop where
  returned : returnedOps m.trace = old ++ live
  uncancelled : ∀ op ∈ old ++ live, ∀ item ∈ op.2, item.cancel = false
  view : m.view = applyAll (redo (old ++ live)) m.base.home
  home : AtLeast m.base.home (old ++ live) old.length m.disk.home

structure Journal (decode : List (List UInt8) → List Item) (m : Mount)
    (old live : List (ℕ × List Item)) : Prop where
  mirror : Mirror m old live
  logbook : Logbook decode m live
  -- with no record outstanding, nothing is held that is not on the home blocks
  settled : m.oldestRecord = none → m.overlay = .empty

def Safe (decode : List (List UInt8) → List Item) (asked : List (List Item)) (m : Mount) : Prop :=
  Survives decode m.base.home (totalBlocks m.sb) asked (returnedOps m.trace) m.disk

theorem returnedOps_append (as bs : List Event) :
    returnedOps (as ++ bs) = returnedOps as ++ returnedOps bs :=
  List.filterMap_append

theorem returnedOps_journal {events : List Event} (h : ∀ ev ∈ events, ev.journal = true) :
    returnedOps events = [] := by
  rw [returnedOps, List.filterMap_eq_nil_iff]
  intro ev hev
  have hj := h ev hev
  cases ev with
  | returned lsn items => exact absurd hj Bool.false_ne_true
  | _ => rfl

theorem Mirror.between (h : Mirror m old live) {home : ℕ → UInt8} (hb : Between m home) :
    AtLeast m.base.home (old ++ live) old.length home := by
  intro a
  rcases hb a with hsame | hview
  · obtain ⟨k, hk, hhome⟩ := h.home a
    exact ⟨k, hk, hsame.trans hhome⟩
  · refine ⟨(old ++ live).length, by simp, ?_⟩
    rw [List.take_length, hview, h.view]

theorem Journal.floor (h : Journal decode m old live) {home : ℕ → UInt8}
    (hkept : Kept m live kept home) :
    ∃ old', old' ++ kept = old ++ live ∧
      AtLeast m.base.home (old ++ live) old'.length home := by
  rcases hkept with ⟨rfl, hb⟩ | ⟨rfl, hhome⟩
  · exact ⟨old, rfl, h.mirror.between hb⟩
  · have hview : home = m.view := by
      rcases hhome with hview | ⟨hold, hb⟩
      · exact hview
      · funext a
        have hsame : m.view a = m.disk.home a := by
          change m.overlay.byte m.disk.home a = _
          rw [h.settled hold, Overlay.byte_empty]
        rcases hb a with ha | ha
        · exact ha.trans hsame.symm
        · exact ha
    exact ⟨old ++ live, List.append_nil _, atLeast_all (hview.trans h.mirror.view)⟩

variable {items : List Item} {first : Mount}

theorem Moment.survives {d : Disk} (hmoment : Moment decode m live items d)
    (h : Journal decode m old live) (hno : ∀ item ∈ items, item.cancel = false)
    (hasked : items = [] ∨ items ∈ asked) :
    Survives decode m.base.home (totalBlocks m.sb) asked (old ++ live) d := by
  obtain ⟨kept, extra, hkept, hextra, hholds⟩ := hmoment
  obtain ⟨old', heq, hhome⟩ := h.floor hkept
  have hnone := h.mirror.uncancelled
  rw [← heq] at hhome hnone ⊢
  obtain ⟨transactions, hout, hitems⟩ := hholds.outstanding
  have hrec := recover_eq hhome hout hitems (by
    intro x hx
    rcases List.mem_append.mp hx with hx | hx
    · exact hnone x (List.mem_append_right _ hx)
    · rcases hextra with rfl | ⟨lsn, rfl⟩
      · cases hx
      · rw [List.mem_singleton.mp hx]
        exact hno)
  refine ⟨⟨old', kept, rfl, hhome, fun op hop => hholds.logged op (List.mem_append_left _ hop)⟩, ?_⟩
  rcases hextra with rfl | ⟨lsn, rfl⟩
  · exact ⟨[], .inl rfl, hrec⟩
  · rcases hasked with rfl | hasked
    · refine ⟨[], .inl rfl, ?_⟩
      rw [hrec, List.append_nil, redo_append]
      simp [redo]
    · refine ⟨[(0, items)], .inr ⟨items, hasked, rfl⟩, ?_⟩
      rw [hrec, redo_append, redo_append (old' ++ kept) [(0, items)]]
      rfl

theorem Journal.safe (h : Journal decode m old live) : Safe decode asked m := by
  have hkept := h.mirror.home
  unfold Safe
  rw [h.mirror.returned]
  obtain ⟨transactions, hout, hitems⟩ := h.logbook.holds.outstanding
  refine ⟨⟨old, live, rfl, hkept, h.logbook.holds.logged⟩, [], .inl rfl, ?_⟩
  refine recover_eq hkept hout (by rw [List.append_nil, hitems]) ?_
  intro x hx
  rw [List.append_nil] at hx
  exact h.mirror.uncancelled x (List.mem_append_right _ hx)

theorem Journal.mirror_after (h : Journal decode m old live)
    (hadv : Advance decode m live items m') (hkept : Kept m live kept m'.disk.home) :
    ∃ old', Mirror m' old' kept := by
  obtain ⟨old', heq, hhome⟩ := h.floor hkept
  obtain ⟨events, htrace, hjournal, -⟩ := hadv.trace
  refine ⟨old', ?_, ?_, ?_, ?_⟩
  · rw [htrace, returnedOps_append, returnedOps_journal hjournal, List.append_nil, heq,
      h.mirror.returned]
  · rw [heq]
    exact h.mirror.uncancelled
  · rw [heq, hadv.view, hadv.base, h.mirror.view]
  · rw [heq, hadv.base]
    exact hhome

/-! ## The operation has returned -/

theorem disk_returned (m : Mount) (lsn : ℕ) (items : List Item) :
    ((m.loggedItems items).emit [.returned lsn items]).disk = m.disk := by
  rw [disk_emit, loggedItems_eq items m]
  rfl

theorem Mirror.returned_op (h : Mirror m old kept) (op : Operation decode) (hnone : op.Uncancelled)
    (lsn : ℕ) :
    Mirror ((m.loggedItems op.items).emit [.returned lsn op.items]) old
      (kept ++ [(lsn, op.items)]) := by
  have hitems := loggedItems_eq op.items m
  have hdisk := disk_returned m lsn op.items
  refine ⟨?_, ?_, ?_, ?_⟩
  · change returnedOps ((m.loggedItems op.items).trace ++ _) = _
    rw [hitems, returnedOps_append, h.returned, ← List.append_assoc]
    rfl
  · intro x hx
    rw [← List.append_assoc] at hx
    rcases List.mem_append.mp hx with hx | hx
    · exact h.uncancelled x hx
    · rw [List.mem_singleton.mp hx]
      exact hnone
  · have hview : ((m.loggedItems op.items).emit [.returned lsn op.items]).view =
        (m.loggedItems op.items).view := by
      funext a
      change (m.loggedItems op.items).overlay.byte _ a = _
      rw [disk_emit]
      rfl
    have hbase : ((m.loggedItems op.items).emit [.returned lsn op.items]).base = m.base := by
      rw [hitems]
      rfl
    have hlast : redo [(lsn, op.items)] = op.items.flatMap Item.patches :=
      List.flatMap_singleton ..
    rw [hview, view_loggedItems op.inside, h.view, hbase, ← List.append_assoc,
      redo_append (old ++ kept), applyAll_append, hlast]
  · have hbase : ((m.loggedItems op.items).emit [.returned lsn op.items]).base = m.base := by
      rw [hitems]
      rfl
    rw [hdisk, hbase, ← List.append_assoc]
    exact h.home.append (by simp) _

/-! ## One step -/

-- no item is a cancel, and the mount does not push between a commit and the moment its items reach
-- the overlay
def Meets (m : Mount) : Step decode → Prop
  | .operation op => op.Uncancelled ∧ ∀ p, m.plan op.build = .ok p →
      p.wraps = true ∨ m.overlay.bytes < maxDirtyBytes
  | .sync => True

/-- What one step does to a mount between two steps: every moment is safe, and unless the mount has
stopped writing it is between two steps again. -/
structure Advances (decode : List (List UInt8) → List Item) (asked : List (List Item))
    (m m' : Mount) : Prop where
  base : m'.base = m.base
  sb : m'.sb = m.sb
  trace : ∃ events, m'.trace = m.trace ++ events ∧
    Cuts (fun t => Safe decode asked (m.emit t)) events
  journal : m'.writeFailed = false → ∃ old live, Journal decode m' old live

theorem Journal.safe_advance (h : Journal decode m old live)
    (hadv : Advance decode m live items m') (hno : ∀ item ∈ items, item.cancel = false)
    (hasked : items = [] ∨ items ∈ asked) :
    ∃ events, m'.trace = m.trace ++ events ∧
      Cuts (fun t => Safe decode asked (m.emit t)) events := by
  obtain ⟨events, htrace, hjournal, hcuts⟩ := hadv.trace
  refine ⟨events, htrace, fun t ht => ?_⟩
  have hreturned : returnedOps (m.emit t).trace = old ++ live := by
    change returnedOps (m.trace ++ t) = _
    rw [returnedOps_append, returnedOps_journal fun ev hev => hjournal ev (ht.subset hev),
      List.append_nil, h.mirror.returned]
  have hsurvives := (hcuts t ht).survives h hno hasked
  rw [← hreturned] at hsurvives
  exact hsurvives

theorem advances_sync (h : Journal decode m old live) :
    Advances decode asked m (finalState (sync m)) := by
  have hadv : Advance decode m live [] (finalState (sync m)) := h.logbook.sync
  refine ⟨hadv.base, hadv.sb, h.safe_advance hadv (by simp) (.inl rfl), fun hfail => ?_⟩
  cases hsync : sync m with
  | ok u m' =>
    rw [hsync] at hadv
    obtain ⟨-, -, rfl⟩ := sync_eq_ok hsync
    have hkept : Kept m live live m.settle.disk.home := by
      rw [disk_settle]
      exact .inl ⟨rfl, fun _ => .inr rfl⟩
    obtain ⟨old', hmirror⟩ := h.mirror_after hadv hkept
    exact ⟨old', live, hmirror, h.logbook.settle, fun _ => rfl⟩
  | error e m' =>
    rcases sync_eq_error hsync with ⟨rfl, -⟩ | ⟨-, events, -, rfl⟩
    · exact ⟨old, live, h⟩
    · rw [hsync] at hfail
      cases hfail

theorem Safe.of_trace (hbase : m'.base = m.base) (hsb : m'.sb = m.sb) (htrace : m'.trace = m.trace)
    (h : Safe decode asked m) : Safe decode asked m' := by
  unfold Safe disk at h ⊢
  rw [hbase, hsb, htrace]
  exact h

theorem overlay_below_bound {p : Plan} (hmeets : p.wraps = true ∨ m.overlay.bytes < maxDirtyBytes) :
    ¬maxDirtyBytes ≤ (m.entered p).overlay.bytes := by
  unfold entered
  cases hwraps : p.wraps with
  | true =>
    change ¬maxDirtyBytes ≤ Overlay.empty.bytes
    decide
  | false =>
    rw [if_neg Bool.false_ne_true]
    rw [hwraps] at hmeets
    simp only [Bool.false_eq_true, false_or] at hmeets
    omega

theorem advances_operate (h : Journal decode m old live) (hmeets : Meets m (.operation op))
    (hasked : op.items ∈ asked) : Advances decode asked m (finalState (operate op m)) := by
  cases hcommit : commitRecord op.build m with
  | ok lsn m' =>
    have hop : operate op m = .ok lsn ((m'.loggedItems op.items).emit [.returned lsn op.items]) :=
      seq_eq_ok.mpr ⟨lsn, m', hcommit, rfl⟩
    obtain ⟨hadv, -, p, hplan, hkept, hlogbook, hbound⟩ := h.logbook.commit_ok hcommit
    obtain ⟨events, htrace, hcuts⟩ := h.safe_advance hadv hmeets.1 (.inr hasked)
    obtain ⟨old', hmirror⟩ := h.mirror_after hadv hkept
    have hitems := loggedItems_eq op.items m'
    have hfields : ((m'.loggedItems op.items).emit [.returned lsn op.items]).base = m'.base ∧
        ((m'.loggedItems op.items).emit [.returned lsn op.items]).sb = m'.sb ∧
        ((m'.loggedItems op.items).emit [.returned lsn op.items]).oldestRecord = m'.oldestRecord ∧
        ((m'.loggedItems op.items).emit [.returned lsn op.items]).nextHead = m'.nextHead ∧
        ((m'.loggedItems op.items).emit [.returned lsn op.items]).trace =
          m'.trace ++ [.returned lsn op.items] := by
      rw [hitems]
      exact ⟨rfl, rfl, rfl, rfl, rfl⟩
    rw [hop]
    change Advances decode asked m ((m'.loggedItems op.items).emit [.returned lsn op.items])
    have hdisk := disk_returned m' lsn op.items
    have hmirror' := hmirror.returned_op op hmeets.1 lsn
    generalize (m'.loggedItems op.items).emit [.returned lsn op.items] = m₂ at *
    obtain ⟨hbase, hsb, hold, hnext, htrace₂⟩ := hfields
    have hjournal : Journal decode m₂ old' (m.keptFor p live ++ [(lsn, op.items)]) := by
      refine ⟨hmirror', hlogbook.congr hsb (by rw [hdisk]) hold hnext, ?_⟩
      intro hnone
      exact absurd (hbound (hold.symm.trans hnone)) (overlay_below_bound (hmeets.2 p hplan))
    have htrace' : m₂.trace = m.trace ++ (events ++ [.returned lsn op.items]) := by
      rw [htrace₂, htrace, List.append_assoc]
    refine ⟨hbase.trans hadv.base, hsb.trans hadv.sb, ⟨_, htrace', cuts_append.mpr ⟨hcuts, ?_⟩⟩,
      fun _ => ⟨_, _, hjournal⟩⟩
    intro t ht
    rcases List.prefix_concat_iff.mp (show t <+: [] ++ [_] from ht) with rfl | hnil
    · exact Safe.of_trace (hbase.trans hadv.base).symm (hsb.trans hadv.sb).symm htrace'.symm
        hjournal.safe
    · rw [List.prefix_nil.mp hnil, List.append_nil]
      exact hcuts.whole
  | error e m' =>
    have hop : operate op m = .error e m' := seq_eq_error.mpr (.inl hcommit)
    obtain ⟨hadv, hlater⟩ := h.logbook.commit_error hcommit
    rw [hop]
    refine ⟨hadv.base, hadv.sb, h.safe_advance hadv hmeets.1 (.inr hasked), fun hfail => ?_⟩
    obtain ⟨hover, kept, hkept, hlogbook⟩ := hlater hfail
    obtain ⟨old', hmirror⟩ := h.mirror_after hadv hkept
    refine ⟨old', kept, hmirror, hlogbook, fun hnone => ?_⟩
    rcases hover with hempty | ⟨hsame, hold⟩
    · exact hempty
    · exact hsame.trans (h.settled (hold.symm.trans hnone))

/-! ## A run -/

def itemsAsked (steps : List (Step decode)) : List (List Item) :=
  steps.filterMap fun
    | .operation op => some op.items
    | .sync => none

def MeetsAll (m : Mount) : List (Step decode) → Prop
  | [] => True
  | s :: steps => Meets m s ∧ MeetsAll (m.step s) steps

def cutAt (m : Mount) (t : List Event) : Mount :=
  { m with trace := t }

structure Reached (decode : List (List UInt8) → List Item) (asked : List (List Item))
    (first m : Mount) : Prop where
  base : m.base = first.base
  sb : m.sb = first.sb
  cuts : Cuts (fun t => Safe decode asked (first.cutAt t)) m.trace
  journal : m.writeFailed = false → ∃ old live, Journal decode m old live

theorem Clean.journal (h : Clean m) : Journal decode m [] [] := by
  refine ⟨⟨by rw [h.trace]; rfl, by simp, ?_, ?_⟩, h.logbook, fun _ => h.overlay⟩
  · funext a
    change m.overlay.byte m.disk.home a = m.base.home a
    rw [h.overlay, Overlay.byte_empty, h.disk]
  · intro a
    exact ⟨0, le_refl 0, by rw [h.disk]; rfl⟩

theorem Clean.reached (h : Clean m) : Reached decode asked m m where
  base := rfl
  sb := rfl
  cuts := by
    have hjournal : Journal decode m [] [] := h.journal
    rw [h.trace]
    exact cuts_nil.mpr (Safe.of_trace (m := m) rfl rfl h.trace.symm hjournal.safe)
  journal := fun _ => ⟨[], [], h.journal⟩

theorem Reached.advance (h : Reached decode asked first m)
    (hadv : Advances decode asked m m') : Reached decode asked first m' := by
  obtain ⟨events, htrace, hcuts⟩ := hadv.trace
  refine ⟨hadv.base.trans h.base, hadv.sb.trans h.sb, ?_, hadv.journal⟩
  rw [htrace]
  refine cuts_append.mpr ⟨h.cuts, fun t ht => ?_⟩
  exact Safe.of_trace (m := m.emit t) h.base.symm h.sb.symm rfl (hcuts t ht)

theorem step_of_writeFailed (h : m.writeFailed = true) (s : Step decode) : m.step s = m := by
  have hdev : writableDevice m = .error (.io _) m := if_pos h
  cases s with
  | operation op =>
    have hcommit : commitRecord op.build m = .error (.io _) m := seq_eq_error.mpr (.inl hdev)
    have hop : operate op m = .error (.io _) m := seq_eq_error.mpr (.inl hcommit)
    rw [step, hop]
    rfl
  | sync =>
    have hsync : sync m = .error (.io _) m := seq_eq_error.mpr (.inl hdev)
    rw [step, hsync]
    rfl

theorem step_survives (h : Reached decode asked first m) (s : Step decode)
    (hmeets : Meets m s) (hasked : ∀ op, s = .operation op → op.items ∈ asked) :
    Reached decode asked first (m.step s) := by
  cases hfail : m.writeFailed with
  | true =>
    rw [step_of_writeFailed hfail]
    exact h
  | false =>
    obtain ⟨old, live, hjournal⟩ := h.journal hfail
    cases s with
    | operation op => exact h.advance (advances_operate hjournal hmeets (hasked op rfl))
    | sync => exact h.advance (advances_sync hjournal)

theorem run_survives {steps : List (Step decode)}
    (h : Reached decode asked first m) (hmeets : MeetsAll m steps)
    (hasked : itemsAsked steps ⊆ asked) : Reached decode asked first (m.run steps) := by
  induction steps generalizing m with
  | nil => exact h
  | cons s steps ih =>
    have hfirst : ∀ op, s = .operation op → op.items ∈ asked := by
      rintro op rfl
      exact hasked List.mem_cons_self
    have hrest : itemsAsked steps ⊆ asked := by
      intro items hitems
      apply hasked
      cases s with
      | operation op => exact List.mem_cons_of_mem _ hitems
      | sync => exact hitems
    exact ih (step_survives h s hmeets.1 hfirst) hmeets.2 hrest

end

end FsXfs.Mount
