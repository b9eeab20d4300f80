import FsXfs.Stale

/-!
# Replay and blocks that have changed hands

A record at or after the tail may hold an image of a block that a later record freed and a file now
uses. A replay leaves the file's bytes alone if and only if a cancel with the image's key comes
after it.
-/

namespace FsXfs.Mount

open Log Redo StateProg Cut

set_option autoImplicit false

variable {decode : List (List UInt8) → List Item} {sectors : ℕ} {m m' : Mount}
  {live : List (ℕ × List Item)} {use : ℕ → Use} {op : Change decode sectors} {a : ℕ}

/-! ## What a crash must find -/

def Change.Owns (op : Change decode sectors) (use : ℕ → Use) (t : List Event) (a : ℕ) : Prop :=
  use (a / 512) = .data ∧ ¬op.Gives (a / 512) ∨
    InRuns op.takenData (a / 512) ∧ Covers (dataPatches t) a

namespace Session

def Owns (s : Session) : Step decode sectors → List Event → ℕ → Prop
  | .operation op => op.Owns s.use
  | .sync => fun _ a => s.use (a / 512) = .data

/-- With the events `t` of the step `next` on the device, a replay leaves every file's bytes as they
were written. -/
def Recovers (decode : List (List UInt8) → List Item) (s : Session) (next : Step decode sectors)
    (t : List Event) : Prop :=
  ∃ home, recover decode (s.mount.emit t).disk (totalBlocks s.mount.sb) = .ok home ∧
    ∀ a, s.Owns next t a → home a = (s.mount.emit t).fileBytes a

/-- What an operation has to log for the metadata blocks it gives back: a cancel for each image a
record at or after the tail holds of one. With no such record, or a push first, nothing. -/
def Cancels (s : Session) (op : Change decode sectors) : Prop :=
  op.syncsFirst = true ∨ s.mount.oldestRecord = none ∨
    ∀ transactions, outstanding s.mount.disk.ring (totalBlocks s.mount.sb) = .ok transactions →
      ∀ item ∈ transactions.flatMap (itemsOf decode), item.cancel = false →
        ∀ a, Covers item.patches a → s.use (a / 512) = .metadata →
          op.useAfter s.use (a / 512) ≠ .metadata →
            ∃ c ∈ op.items, c.cancel = true ∧ c.key = item.key

def CancelsStep (s : Session) : Step decode sectors → Prop
  | .operation op => s.Cancels op
  | .sync => True

def CancelsAll (s : Session) (steps : List (Step decode sectors)) : Prop :=
  s.Along CancelsStep steps

end Session

/-! ## One moment -/

/-- At any moment of a commit, a replay leaves alone the bytes that are not held in the overlay and
that no live item reaches. -/
theorem Moment.recovers {items : List Item} {d : Disk} (h : Moment decode m live items d)
    {P : ℕ → Prop} (hP : ∀ a, P a → ¬m.overlay.Held (a / 512) ∧
      Skipped a (live.flatMap Prod.snd) ∧ Skipped a items) :
    ∃ home, recover decode d (totalBlocks m.sb) = .ok home ∧
      ∀ a, P a → home a = m.disk.home a := by
  obtain ⟨kept, extra, hkept, hextra, hholds⟩ := h
  obtain ⟨transactions, hout, hitems⟩ := hholds.outstanding
  refine ⟨_, recover_of_outstanding decode hout, fun a ha => ?_⟩
  obtain ⟨hheld, hlive, hnew⟩ := hP a ha
  have hfirst : Skipped a (kept.flatMap Prod.snd) := by
    rcases hkept with ⟨rfl, -⟩ | ⟨rfl, -⟩
    · exact hlive
    · trivial
  have hlast : Skipped a (extra.flatMap Prod.snd) := by
    rcases hextra with rfl | ⟨lsn, rfl⟩
    · trivial
    · rw [List.flatMap_singleton]
      exact hnew
  have hhome : d.home a = m.disk.home a := by
    have hview := view_of_unheld hheld
    have hbetween : Between m d.home → d.home a = m.disk.home a := by
      intro hb
      rcases hb a with hsame | hseen
      · exact hsame
      · exact hseen.trans hview
    rcases hkept with ⟨-, hb⟩ | ⟨-, hall | ⟨-, hb⟩⟩
    · exact hbetween hb
    · rw [hall, hview]
    · exact hbetween hb
  rw [hitems, List.flatMap_append, replayItems_of_skipped (skipped_append hfirst hlast), hhome]

namespace Session

variable {s : Session} {lsn : ℕ} {next : Step decode sectors}

theorem recovers_of_moment {items : List Item} {t : List Event}
    (h : Moment decode m live items (s.mount.emit t).disk) (hsb : m.sb = s.mount.sb)
    (hfile : (s.mount.emit t).fileBytes = m.fileBytes)
    (howns : ∀ a, s.Owns next t a → m.Agrees a ∧ ¬m.overlay.Held (a / 512) ∧
      Skipped a (live.flatMap Prod.snd) ∧ Skipped a items) : Recovers decode s next t := by
  obtain ⟨home, hrec, hhome⟩ := h.recovers fun a ha => (howns a ha).2
  rw [hsb] at hrec
  refine ⟨home, hrec, fun a ha => ?_⟩
  rw [hhome a ha, hfile]
  exact (howns a ha).1

theorem recovers_returned {t : List Event} {items : List Item}
    (h : Recovers decode s next t) : Recovers decode s next (t ++ [.returned lsn items]) := by
  have hdata : dataPatches (t ++ [.returned lsn items]) = dataPatches t := by
    rw [dataPatches_append]
    exact List.append_nil _
  have howns : ∀ a, s.Owns next (t ++ [.returned lsn items]) a ↔ s.Owns next t a := by
    intro a
    cases next with
    | sync => exact Iff.rfl
    | operation op =>
      change op.Owns s.use _ a ↔ op.Owns s.use _ a
      rw [Change.Owns, Change.Owns, hdata]
  have hdisk : (s.mount.emit (t ++ [.returned lsn items])).disk = (s.mount.emit t).disk := by
    rw [← emit_emit, disk_emit]
    rfl
  have hfile : (s.mount.emit (t ++ [.returned lsn items])).fileBytes =
      (s.mount.emit t).fileBytes := by
    rw [fileBytes_emit, fileBytes_emit, hdata]
  obtain ⟨home, hrec, hhome⟩ := h
  refine ⟨home, by rw [hdisk]; exact hrec, fun a ha => ?_⟩
  rw [hfile]
  exact hhome a ((howns a).mp ha)

/-! ## The bytes a file has during an operation -/

theorem Owns.use_ne (hallowed : s.Allowed op) {t : List Event} (h : op.Owns s.use t a) :
    s.use (a / 512) ≠ .metadata ∧ op.useAfter s.use (a / 512) ≠ .metadata := by
  unfold Change.useAfter
  rcases h with ⟨huse, hgives⟩ | ⟨htaken, -⟩
  · refine ⟨by rw [huse]; decide, ?_⟩
    have hmeta : ¬InRuns op.takenMetadata (a / 512) := by
      intro hin
      rcases hallowed.metadata_free _ hin with hfree | hgiven
      · cases huse.symm.trans hfree
      · exact hgives hgiven
    rw [if_neg hmeta, if_neg hgives, huse]
    split <;> decide
  · rw [hallowed.data_free _ htaken, if_pos htaken]
    decide

theorem Drops.skipped (hdrops : s.Drops op) (hafter : op.useAfter s.use (a / 512) ≠ .metadata) :
    Skipped a op.items := by
  apply skipped_of_not_covers
  intro item hitem hcancel hcov
  apply hafter
  apply hdrops.images item (List.mem_filter.mpr ⟨hitem, by rw [hcancel]; rfl⟩)
  have hin : item.bb * 512 ≤ a ∧ a < item.bb * 512 + item.size := by
    by_contra hout
    exact not_covers_outside (op.inside item hitem) hout hcov
  have hsize := @le_divCeil_mul item.size 512 (by decide)
  refine ⟨?_, ?_⟩ <;> omega

/-- What holds of the log of a session between two steps, beside `Tidy`. -/
structure Replayable (decode : List (List UInt8) → List Item) (s : Session)
    (live : List (ℕ × List Item)) : Prop where
  tidy : Tidy s.mount s.use
  logbook : Logbook decode s.mount live
  skipped : ∀ a, s.use (a / 512) ≠ .metadata → Skipped a (live.flatMap Prod.snd)

def pushedFirst (s : Session) (op : Change decode sectors) : List Event :=
  if op.syncsFirst then pushEvents s.mount.overlay else []

theorem journal_pushedFirst (s : Session) (op : Change decode sectors) :
    ∀ ev ∈ s.pushedFirst op, ev.journal = true := by
  unfold pushedFirst
  split
  · exact journal_push (List.prefix_refl _)
  · simp

theorem synced_eq (s : Session) (op : Change decode sectors) :
    (s.mount.synced op).base = s.mount.base ∧ (s.mount.synced op).sb = s.mount.sb ∧
      (s.mount.synced op).trace = s.mount.trace ++ s.pushedFirst op := by
  unfold synced pushedFirst
  split
  · exact ⟨rfl, rfl, rfl⟩
  · exact ⟨rfl, rfl, (List.append_nil _).symm⟩

theorem synced_emit (s : Session) (op : Change decode sectors) (t : List Event) :
    ((s.mount.synced op).emit t).disk = (s.mount.emit (s.pushedFirst op ++ t)).disk ∧
      ((s.mount.synced op).emit t).fileBytes =
        (s.mount.emit (s.pushedFirst op ++ t)).fileBytes := by
  obtain ⟨hbase, -, htrace⟩ := synced_eq s op
  have hall : ((s.mount.synced op).emit t).trace =
      (s.mount.emit (s.pushedFirst op ++ t)).trace := by
    change (s.mount.synced op).trace ++ t = s.mount.trace ++ (s.pushedFirst op ++ t)
    rw [htrace, List.append_assoc]
  have hbase' : ((s.mount.synced op).emit t).base =
      (s.mount.emit (s.pushedFirst op ++ t)).base := hbase
  rw [disk, disk, fileBytes, fileBytes, hall, hbase']
  exact ⟨rfl, rfl⟩

/-! ## The moments of an operation -/

section

variable (h : Replayable decode s live) (hallowed : s.Allowed op)
include h hallowed

theorem Replayable.skipped_owned {t : List Event} (howns : op.Owns s.use t a) :
    Skipped a (live.flatMap Prod.snd) :=
  h.skipped a (Owns.use_ne hallowed howns).1

theorem Replayable.recovers_push : Cuts (Recovers decode s (.operation op)) (s.pushedFirst op) := by
  intro t ht
  have hmoment : Moment decode s.mount live [] (s.mount.emit t).disk := by
    unfold pushedFirst at ht
    split at ht
    · exact h.logbook.moment_push ht
    · rw [List.prefix_nil.mp ht, emit_nil]
      exact h.logbook.moment_start
  have hnone : dataPatches t = [] :=
    dataPatches_journal fun ev hev => journal_pushedFirst s op ev (ht.subset hev)
  refine recovers_of_moment hmoment rfl ?_ fun a ha => ?_
  · rw [fileBytes_emit, hnone]
    rfl
  · have howns : op.Owns s.use t a := ha
    have hdata : s.use (a / 512) = .data := by
      rcases howns with ⟨huse, -⟩ | ⟨-, p, hp, -⟩
      · exact huse
      · rw [hnone] at hp
        cases hp
    exact ⟨h.tidy.bytes a hdata, h.tidy.unheld_data hdata, h.skipped_owned hallowed howns, trivial⟩

theorem Replayable.owned_data {d : List Event} (hpre : d <+: op.dataEvents)
    (howns : op.Owns s.use (s.pushedFirst op ++ d) a) :
    ((s.mount.synced op).emit d).Agrees a ∧
      ¬((s.mount.synced op).emit d).overlay.Held (a / 512) := by
  have htidy : Tidy ((s.mount.synced op).emit d) s.use := (h.tidy.synced h.logbook).data hpre
  refine ⟨?_, htidy.unheld _ (Owns.use_ne hallowed howns).1⟩
  rcases howns with ⟨huse, -⟩ | ⟨-, hcov⟩
  · exact htidy.bytes a huse
  · rw [dataPatches_append, dataPatches_journal (journal_pushedFirst s op), List.nil_append] at hcov
    exact agrees_data hpre (.inr hcov)

theorem Replayable.recovers_data :
    Cuts (fun t => Recovers decode s (.operation op) (s.pushedFirst op ++ t)) op.dataEvents := by
  intro d hpre
  have hlog : Logbook decode ((s.mount.synced op).emit d) live := h.logbook.synced.data hpre
  obtain ⟨hdisk, hfile⟩ := synced_emit s op d
  have hmoment : Moment decode ((s.mount.synced op).emit d) live []
      (s.mount.emit (s.pushedFirst op ++ d)).disk := by
    rw [← hdisk]
    exact hlog.moment_start
  refine recovers_of_moment hmoment (synced_eq s op).2.1 hfile.symm fun a ha => ?_
  obtain ⟨hagrees, hheld⟩ := h.owned_data hallowed hpre ha
  exact ⟨hagrees, hheld, h.skipped_owned hallowed ha, trivial⟩

theorem Replayable.recovers_commit (hdrops : s.Drops op)
    (hadv : Advance decode (s.mount.prepared op) live op.items m') :
    ∃ events, m'.trace = (s.mount.prepared op).trace ++ events ∧
      Cuts (fun t => Recovers decode s (.operation op)
        (s.pushedFirst op ++ (op.dataEvents ++ t))) events := by
  obtain ⟨events, htrace, hjournal, hcuts⟩ := hadv.trace
  refine ⟨events, htrace, fun t ht => ?_⟩
  obtain ⟨hdisk, hfile⟩ := synced_emit s op (op.dataEvents ++ t)
  have hemit : (s.mount.prepared op).emit t = (s.mount.synced op).emit (op.dataEvents ++ t) :=
    emit_emit _ _ _
  have hnone : dataPatches t = [] :=
    dataPatches_journal fun ev hev => hjournal ev (ht.subset hev)
  have hmoment : Moment decode (s.mount.prepared op) live op.items
      (s.mount.emit (s.pushedFirst op ++ (op.dataEvents ++ t))).disk := by
    rw [← hdisk, ← hemit]
    exact hcuts t ht
  refine recovers_of_moment hmoment (synced_eq s op).2.1 ?_ fun a ha => ?_
  · rw [← hfile, ← hemit, fileBytes_emit, hnone]
    rfl
  · have howns : op.Owns s.use (s.pushedFirst op ++ op.dataEvents) a := by
      have hsame : dataPatches (s.pushedFirst op ++ (op.dataEvents ++ t)) =
          dataPatches (s.pushedFirst op ++ op.dataEvents) := by
        rw [← List.append_assoc, dataPatches_append (s.pushedFirst op ++ op.dataEvents), hnone,
          List.append_nil]
      have ha' : op.Owns s.use (s.pushedFirst op ++ (op.dataEvents ++ t)) a := ha
      rw [Change.Owns, hsame] at ha'
      exact ha'
    obtain ⟨hagrees, hheld⟩ := h.owned_data hallowed (List.prefix_refl _) howns
    exact ⟨hagrees, hheld, h.skipped_owned hallowed howns,
      hdrops.skipped (Owns.use_ne hallowed howns).2⟩

end

/-! ## One step -/

theorem Replayable.of_kept {kept : List (ℕ × List Item)} {home : ℕ → UInt8}
    (h : Replayable decode s live) (hkept : Kept m live kept home) :
    ∀ a, s.use (a / 512) ≠ .metadata → Skipped a (kept.flatMap Prod.snd) := by
  intro a ha
  rcases hkept with ⟨rfl, -⟩ | ⟨rfl, -⟩
  · exact h.skipped a ha
  · trivial

theorem Replayable.skipped_after (h : Replayable decode s live) (hdrops : s.Drops op)
    (hcancels : s.Cancels op) (p : Plan) :
    ∀ a, op.useAfter s.use (a / 512) ≠ .metadata →
      Skipped a (((s.mount.prepared op).keptFor p live ++ [(lsn, op.items)]).flatMap Prod.snd) := by
  intro a hafter
  have hnew : Skipped a op.items := hdrops.skipped hafter
  rw [List.flatMap_append, List.flatMap_singleton]
  have hempty : ∀ {kept : List (ℕ × List Item)}, kept = [] →
      Skipped a (kept.flatMap Prod.snd ++ op.items) := by
    rintro kept rfl
    exact hnew
  have hlive : Skipped a (live.flatMap Prod.snd ++ op.items) →
      Skipped a (((s.mount.prepared op).keptFor p live).flatMap Prod.snd ++ op.items) := by
    intro hskip
    unfold keptFor
    split
    · exact hempty rfl
    · exact hskip
  by_cases huse : s.use (a / 512) = .metadata
  · rcases hcancels with hfirst | hnone | hcancels
    · apply hempty
      apply keptFor_of_none
      change (s.mount.synced op).oldestRecord = none
      rw [synced, if_pos hfirst]
      rfl
    · apply hempty
      apply keptFor_of_none
      change (s.mount.synced op).oldestRecord = none
      unfold synced
      split
      · rfl
      · exact hnone
    · obtain ⟨transactions, hout, hitems⟩ := h.logbook.holds.outstanding
      apply hlive
      apply skipped_of_cancels hnew
      intro item hitem hcancel hcov
      rw [← hitems] at hitem
      exact hcancels transactions hout item hitem hcancel a hcov huse hafter
  · exact hlive (skipped_append (h.skipped a huse) hnew)

theorem trace_prepared (s : Session) (op : Change decode sectors) :
    (s.mount.prepared op).trace = s.mount.trace ++ (s.pushedFirst op ++ op.dataEvents) := by
  change (s.mount.synced op).trace ++ op.dataEvents = _
  rw [(synced_eq s op).2.2, List.append_assoc]

theorem Replayable.operation (h : Replayable decode s live) (hallowed : s.Allowed op)
    (hdrops : s.Drops op) (hcancels : s.Cancels op) :
    (∃ events, (s.step (.operation op)).mount.trace = s.mount.trace ++ events ∧
        Cuts (Recovers decode s (.operation op)) events) ∧
      ((s.step (.operation op)).mount.writeFailed = false →
        ∃ live', Replayable decode (s.step (.operation op)) live') := by
  have hpush := h.recovers_push hallowed
  have hdata := h.recovers_data hallowed
  have hprep : Logbook decode (s.mount.prepared op) live := Logbook.prepared h.logbook
  have htidy : Tidy (s.mount.prepared op) s.use := Tidy.prepared h.tidy h.logbook
  rcases perform_cases op s.mount with ⟨e, m', hop, hstop⟩ | ⟨e, m', hop, hcommit⟩ |
    ⟨lsn, m', hop, hcommit⟩
  · rw [Session.step, hop]
    rcases prepare_eq_error hstop with rfl | ⟨hfirst, hsync⟩ | ⟨d, hpre, rfl⟩
    · exact ⟨⟨[], (List.append_nil _).symm, hpush.shorten List.nil_prefix⟩, fun _ => ⟨live, h⟩⟩
    · rcases sync_eq_error hsync with ⟨rfl, -⟩ | ⟨-, events, hpre, rfl⟩
      · exact ⟨⟨[], (List.append_nil _).symm, hpush.shorten List.nil_prefix⟩, fun _ => ⟨live, h⟩⟩
      · refine ⟨⟨events, rfl, hpush.shorten ?_⟩, fun hno => by cases hno⟩
        rw [pushedFirst, if_pos hfirst]
        exact hpre
    · refine ⟨⟨s.pushedFirst op ++ d, ?_, cuts_append.mpr ⟨hpush, hdata.shorten hpre⟩⟩,
        fun _ => ⟨live, (h.tidy.synced h.logbook).data hpre, h.logbook.synced.data hpre, h.skipped⟩⟩
      change (s.mount.synced op).trace ++ d = _
      rw [(synced_eq s op).2.2, List.append_assoc]
  · rw [Session.step, hop]
    obtain ⟨hadv, hlater⟩ := hprep.commit_error hcommit
    obtain ⟨events, htrace, hcuts⟩ := h.recovers_commit hallowed hdrops hadv
    refine ⟨⟨s.pushedFirst op ++ (op.dataEvents ++ events), ?_,
      cuts_append.mpr ⟨hpush, cuts_append.mpr ⟨hdata, hcuts⟩⟩⟩, fun hno => ?_⟩
    · change m'.trace = _
      rw [htrace, trace_prepared]
      simp only [List.append_assoc]
    · obtain ⟨-, kept, hkept, hlog⟩ := hlater hno
      exact ⟨kept, htidy.advance hadv, hlog, h.of_kept hkept⟩
  · rw [Session.step, hop]
    obtain ⟨hadv, -, p, -, hkept, hlog, -⟩ := hprep.commit_ok hcommit
    obtain ⟨events, htrace, hcuts⟩ := h.recovers_commit hallowed hdrops hadv
    refine ⟨⟨s.pushedFirst op ++ (op.dataEvents ++ (events ++ [.returned lsn op.items])), ?_,
      cuts_append.mpr ⟨hpush, cuts_append.mpr ⟨hdata, cuts_append.mpr ⟨hcuts, ?_⟩⟩⟩⟩,
      fun _ => ⟨_, Tidy.finished h.tidy h.logbook hallowed hdrops hadv, Logbook.finished hlog,
        h.skipped_after hdrops hcancels p⟩⟩
    · change (m'.finished op lsn).trace = _
      rw [finished_eq]
      change m'.trace ++ _ = _
      rw [htrace, trace_prepared]
      simp only [List.append_assoc]
    · intro t ht
      rcases List.prefix_concat_iff.mp (show t <+: [] ++ [_] from ht) with rfl | hnil
      · have hwhole := @recovers_returned decode sectors s lsn _ _ op.items hcuts.whole
        simp only [List.append_assoc] at hwhole
        exact hwhole
      · rw [List.prefix_nil.mp hnil, List.append_nil]
        exact hcuts.whole

theorem Replayable.sync (h : Replayable decode s live) :
    (∃ events, (finalState (Mount.sync s.mount)).trace = s.mount.trace ++ events ∧
        Cuts (Recovers decode s (.sync : Step decode sectors)) events) ∧
      ((finalState (Mount.sync s.mount)).writeFailed = false →
        ∃ live', Replayable decode ⟨finalState (Mount.sync s.mount), s.use⟩ live') := by
  have hadv : Advance decode s.mount live [] (finalState (Mount.sync s.mount)) := h.logbook.sync
  obtain ⟨events, htrace, hjournal, hcuts⟩ := hadv.trace
  refine ⟨⟨events, htrace, fun t ht => ?_⟩, fun hfail => ?_⟩
  · have hnone : dataPatches t = [] :=
      dataPatches_journal fun ev hev => hjournal ev (ht.subset hev)
    refine recovers_of_moment (hcuts t ht) rfl ?_ fun a ha => ?_
    · rw [fileBytes_emit, hnone]
      rfl
    · have hdata : s.use (a / 512) = .data := ha
      exact ⟨h.tidy.bytes a hdata, h.tidy.unheld_data hdata,
        h.skipped a (by rw [hdata]; decide), trivial⟩
  · refine ⟨live, h.tidy.advance hadv, ?_, h.skipped⟩
    cases hsync : Mount.sync s.mount with
    | ok u m' =>
      obtain ⟨-, -, rfl⟩ := sync_eq_ok hsync
      exact h.logbook.settle
    | error e m' =>
      rcases sync_eq_error hsync with ⟨rfl, -⟩ | ⟨-, events, -, rfl⟩
      · exact h.logbook
      · rw [hsync] at hfail
        cases hfail

theorem Replayable.step (h : Replayable decode s live) (hallowed : s.AllowedStep next)
    (hdrops : s.DropsStep next) (hcancels : s.CancelsStep next) :
    (∃ events, (s.step next).mount.trace = s.mount.trace ++ events ∧
        Cuts (Recovers decode s next) events) ∧
      ((s.step next).mount.writeFailed = false → ∃ live', Replayable decode (s.step next) live') := by
  cases next with
  | operation op => exact h.operation hallowed hdrops hcancels
  | sync => exact h.sync

/-! ## A run -/

theorem Replayable.run {steps : List (Step decode sectors)}
    (h : s.mount.writeFailed = false → ∃ live, Replayable decode s live)
    (hallowed : s.AllowedAll steps) (hdrops : s.DropsAll steps) (hcancels : s.CancelsAll steps) :
    (s.run steps).mount.writeFailed = false → ∃ live, Replayable decode (s.run steps) live := by
  induction steps generalizing s with
  | nil => exact h
  | cons next steps ih =>
    refine ih (fun hfail => ?_) hallowed.2 hdrops.2 hcancels.2
    cases hbefore : s.mount.writeFailed with
    | true =>
      rw [step_of_writeFailed hbefore] at hfail
      exact absurd (hfail.symm.trans hbefore) Bool.false_ne_true
    | false =>
      obtain ⟨live, hlive⟩ := h hbefore
      exact (hlive.step hallowed.1 hdrops.1 hcancels.1).2 hfail

theorem Replayable.of_clean (h : Clean s.mount) : Replayable decode s [] where
  tidy := by
    have hsound : Sound decode s := .of_clean h
    exact hsound.tidy
  logbook := h.logbook
  skipped := fun _ _ => trivial

end Session

/-! ## The log over a pile of blocks -/

structure Laid (n : ℕ) (m : Mount) : Prop where
  piled : Piled n m
  live : ∃ live, Logbook decodeBuffers m live ∧
    live.flatMap Prod.snd = (List.range n).map bufferAt
  oldest : n = 0 ∨ ∃ t, m.oldestRecord = some t

theorem bigLogVolume_laid : Laid 0 bigLogVolume :=
  ⟨bigLogVolume_piled, ⟨[], bigLogVolume_clean.logbook, rfl⟩, .inl rfl⟩

theorem Laid.perform {n : ℕ} (h : Laid n m) (hn : n < 4096) {op : Change decodeBuffers 8}
    (hop : op.toCheckpoint = bufferCheckpoint n) (hfirst : op.syncsFirst = false)
    (hforgotten : op.forgotten = []) :
    ∃ lsn m', Mount.perform op m = .ok lsn m' ∧ Laid (n + 1) m' ∧
      m'.fileBytes = (m.emit op.dataEvents).fileBytes := by
  obtain ⟨p, lsn, hplan, hstraight, hcommit, hperform, hpiled⟩ :=
    h.piled.perform hn hop hfirst hforgotten
  obtain ⟨live, hlog, hlive⟩ := h.live
  have hdata : Logbook decodeBuffers (m.emit op.dataEvents) live := hlog.data (List.prefix_refl _)
  obtain ⟨hadv, -, p', hplan', -, hlogged, -⟩ := hdata.commit_ok hcommit
  cases hplan.symm.trans hplan'
  have hkept : ((m.emit op.dataEvents).keptFor p live).flatMap Prod.snd =
      (List.range n).map bufferAt := by
    rcases h.oldest with rfl | ⟨t, hold⟩
    · unfold keptFor
      split
      · rfl
      · exact hlive
    · rw [keptFor_of_some hstraight.wraps (show (m.emit op.dataEvents).oldestRecord = some t from hold)]
      exact hlive
  refine ⟨lsn, _, hperform, ⟨hpiled, ⟨_, Logbook.finished hlogged, ?_⟩, .inr ?_⟩, ?_⟩
  · rw [List.flatMap_append, hkept, List.flatMap_singleton, List.range_succ, List.map_append, hop]
    rfl
  · rw [finished_eq]
    exact ⟨_, rfl⟩
  · rw [fileBytes_finished, hadv.fileBytes]

theorem step_laid {s : Session} {n : ℕ} (h : Laid n s.mount) (hn : n < 4096)
    {op : Change decodeBuffers 8} (hop : op.toCheckpoint = bufferCheckpoint n)
    (hfirst : op.syncsFirst = false) (hforgotten : op.forgotten = []) :
    Laid (n + 1) (s.step (.operation op)).mount ∧
      (s.step (.operation op)).mount.fileBytes = (s.mount.emit op.dataEvents).fileBytes := by
  obtain ⟨lsn, m', hperform, hlaid, hfile⟩ := h.perform hn hop hfirst hforgotten
  rw [Session.step, hperform]
  exact ⟨hlaid, hfile⟩

theorem cancels_loggedThenFilled :
    reuseSession.CancelsAll (loggedThenFreed ++ [.operation (fillBlock 1 (place 0))]) := by
  obtain ⟨hlaid, -⟩ := @step_laid reuseSession 0 bigLogVolume_laid (by decide)
    (takeMetadata 0 (place 0)) rfl rfl rfl
  refine Session.along_append.mpr ⟨⟨.inr (.inl rfl), .inr (.inr ?_), trivial⟩, .inr (.inr ?_)⟩
  · intro transactions hout item hitem _ _ _ _ _
    obtain ⟨live, hlog, hlive⟩ := hlaid.live
    obtain ⟨transactions', hout', hitems⟩ := hlog.holds.outstanding
    cases hout.symm.trans hout'
    rw [hitems, hlive] at hitem
    obtain rfl := List.mem_singleton.mp (show item ∈ [bufferAt 0] from hitem)
    exact ⟨cancelItem (place 0) 8, List.mem_singleton_self _, rfl, by decide⟩
  · rw [use_loggedThenFreed]
    exact fun _ _ _ _ _ _ _ hb hafter => absurd (fillBlock_keeps_metadata 1 _ hb) hafter

/-- In every run from a clean log whose operations see to the images of the blocks they give back,
in the overlay and in the log, a crash at any moment of any step loses no byte of a file: a replay
succeeds and leaves what was written in place. A mount that has stopped writing writes no more. -/
theorem file_blocks_survive_replay {s : Session} (hclean : Clean s.mount)
    (steps : List (Session.Step decode sectors)) (next : Session.Step decode sectors)
    (hallowed : s.AllowedAll (steps ++ [next])) (hdrops : s.DropsAll (steps ++ [next]))
    (hcancels : s.CancelsAll (steps ++ [next])) :
    ((s.run steps).mount.writeFailed = true ∧ (s.run steps).step next = s.run steps) ∨
      ∃ events, ((s.run steps).step next).mount.trace = (s.run steps).mount.trace ++ events ∧
        Cuts (Session.Recovers decode (s.run steps) next) events := by
  obtain ⟨hallowed, hlast⟩ := Session.along_append.mp hallowed
  obtain ⟨hdrops, hdropsLast⟩ := Session.along_append.mp hdrops
  obtain ⟨hcancels, hcancelsLast⟩ := Session.along_append.mp hcancels
  cases hfail : (s.run steps).mount.writeFailed with
  | true => exact .inl ⟨rfl, Session.step_of_writeFailed hfail next⟩
  | false =>
    obtain ⟨live, hlive⟩ := Session.Replayable.run
      (fun _ => ⟨[], Session.Replayable.of_clean hclean⟩) hallowed hdrops hcancels hfail
    exact .inr (hlive.step hlast hdropsLast hcancelsLast).1

/-- A block is logged as an attribute fork's and freed with its fork, and a crash at any moment of
the operation that fills it finds the file's bytes. -/
theorem freed_then_filled_block_survives_replay :
    Clean reuseSession.mount ∧
      (((reuseSession.run loggedThenFreed).mount.writeFailed = true ∧
          (reuseSession.run loggedThenFreed).step (.operation (fillBlock 1 (place 0))) =
            reuseSession.run loggedThenFreed) ∨
        ∃ events, ((reuseSession.run loggedThenFreed).step
              (.operation (fillBlock 1 (place 0)))).mount.trace =
            (reuseSession.run loggedThenFreed).mount.trace ++ events ∧
          Cuts (Session.Recovers decodeBuffers (reuseSession.run loggedThenFreed)
            (.operation (fillBlock 1 (place 0)))) events) :=
  ⟨bigLogVolume_clean, file_blocks_survive_replay bigLogVolume_clean loggedThenFreed
    (.operation (fillBlock 1 (place 0))) allowed_loggedThenFilled drops_loggedThenFilled
    cancels_loggedThenFilled⟩

theorem fileBytes_fillBlock (m : Mount) (i bb : ℕ) :
    (m.emit (fillBlock i bb).dataEvents).fileBytes (bb * 512) = 2 := by
  rw [fileBytes_emit]
  refine applyAll_of_agree ?_ (covers_twos ⟨by omega, by omega⟩ i)
  intro p hp b hb
  rw [List.mem_singleton.mp (show p ∈ [chunkPatch (bb * 512) twos] from hp), chunkPatch] at hb
  split at hb
  · next hin =>
    rw [Nat.sub_self, twos, List.getD_eq_getElem?_getD,
      List.getElem?_replicate_of_lt (by decide)] at hb
    exact (Option.some.inj hb).symm
  · cases hb

theorem Laid.recovers_first {n : ℕ} (h : Laid (n + 1) m) :
    ∃ home, recover decodeBuffers m.disk (totalBlocks m.sb) = .ok home ∧
      home (place 0 * 512) = 1 := by
  obtain ⟨live, hlog, hlive⟩ := h.live
  obtain ⟨transactions, hout, hitems⟩ := hlog.holds.outstanding
  have hno : ∀ item ∈ (List.range (n + 1)).map bufferAt, item.cancel = false := by
    intro item hitem
    obtain ⟨i, -, rfl⟩ := List.mem_map.mp hitem
    rfl
  refine ⟨_, recover_of_outstanding decodeBuffers hout, ?_⟩
  rw [hitems, hlive, replayItems_of_no_cancel hno]
  refine applyAll_of_agree ?_ ⟨chunkPatch (place 0 * 512) ones, ?_, ?_⟩
  · intro p hp b hb
    obtain ⟨item, hitem, hp⟩ := List.mem_flatMap.mp hp
    obtain ⟨i, -, rfl⟩ := List.mem_map.mp hitem
    rw [List.mem_singleton.mp hp] at hb
    exact chunkPatch_ones hb
  · refine List.mem_flatMap.mpr ⟨bufferAt 0, List.mem_map.mpr ⟨0, by simp, rfl⟩, ?_⟩
    exact List.mem_singleton.mpr rfl
  · rw [chunkPatch, if_pos (by rw [ones_length]; omega)]
    rfl

/-- A block is logged as metadata, freed as an extent with no cancel, and filled with a file's
bytes. A crash now makes it metadata again. -/
theorem freed_extent_is_replayed_over_the_file :
    Clean reuseSession.mount ∧ reuseSession.AllowedAll reusedBlock ∧
      ¬Session.Recovers decodeBuffers (reuseSession.run reusedBlock)
        (.sync : Session.Step decodeBuffers 8) [] := by
  obtain ⟨hallowed, -, huse⟩ := run_reusedBlock
  refine ⟨bigLogVolume_clean, hallowed, ?_⟩
  obtain ⟨hlaid₁, -⟩ := @step_laid reuseSession 0 bigLogVolume_laid (by decide)
    (takeMetadata 0 (place 0)) rfl rfl rfl
  generalize hs₁ : reuseSession.step (.operation (takeMetadata 0 (place 0))) = s₁ at hlaid₁
  obtain ⟨hlaid₂, -⟩ := @step_laid s₁ 1 hlaid₁ (by decide) (freeExtent 1 (place 0)) rfl rfl rfl
  generalize hs₂ : s₁.step (.operation (freeExtent 1 (place 0))) = s₂ at hlaid₂
  obtain ⟨hlaid₃, hfile⟩ := @step_laid s₂ 2 hlaid₂ (by decide) (fillBlock 2 (place 0)) rfl rfl rfl
  have hrun : reuseSession.run reusedBlock = s₂.step (.operation (fillBlock 2 (place 0))) := by
    rw [Session.run, reusedBlock, List.foldl_cons, List.foldl_cons, List.foldl_cons,
      List.foldl_nil, hs₁, hs₂]
  rw [← hrun] at hlaid₃ hfile
  generalize reuseSession.run reusedBlock = s₃ at huse hlaid₃ hfile
  rintro ⟨home, hrec, hhome⟩
  obtain ⟨home', hrec', hfirst⟩ := hlaid₃.recovers_first
  rw [emit_nil] at hrec hhome
  cases hrec.symm.trans hrec'
  have howns : s₃.use (place 0 * 512 / 512) = .data := by
    rw [huse]
    decide
  have hbyte := hhome (place 0 * 512) howns
  rw [hfirst, hfile, fileBytes_fillBlock] at hbyte
  exact absurd hbyte (by decide)

end FsXfs.Mount
