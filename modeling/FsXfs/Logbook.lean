import FsXfs.Effects
import FsXfs.Lib.Cut

/-!
# The log through one commit

What the ring, the head and the tail of a mount are between two operations, for the list `live` of
transactions a replay would apply, and what they are at each moment of a commit.
-/

namespace FsXfs.Mount

open Log Redo StateProg Cut

set_option autoImplicit false

/-! ## Checkpoints -/

/-- A transaction as an operation logs it: its body for the id it is given, and the items recovery
reads out of it. -/
structure Checkpoint (decode : List (List UInt8) → List Item) where
  body : ℕ → List Op
  items : List Item
  plain : ∀ tid, ∀ op ∈ body tid, op.isPlain = true
  decoded : ∀ tid, itemsOf decode (body tid) = items

namespace Checkpoint

variable {decode : List (List UInt8) → List Item}

def build (op : Checkpoint decode) : ℕ → List Op := fun tid =>
  transactionOps (op.body tid)

end Checkpoint

section

variable (decode : List (List UInt8) → List Item)

def Logged (total : ℕ) (ring : Ring) (op : ℕ × List Item) : Prop :=
  ∃ bb newest transactions, scanWholeRing ring total = some (bb, newest) ∧
    newest.tailLsn ≤ op.1 ∧ outstanding ring total = .ok transactions ∧
    ∃ body ∈ transactions, itemsOf decode body = op.2

structure Holds (total : ℕ) (ring : Ring) (live : List (ℕ × List Item)) : Prop where
  outstanding : ∃ transactions, outstanding ring total = .ok transactions ∧
    transactions.flatMap (itemsOf decode) = live.flatMap Prod.snd
  logged : ∀ op ∈ live, Logged decode total ring op

/-- The log as the next record finds it: the records `rs` from the tail `t` to the head hold the
live operations, and no transaction is left open. -/
structure Ready (total : ℕ) (ring : Ring) (head : Head) (t : ℕ) (live : List (ℕ × List Item))
    (rs : List LogRecord) (transactions : List (List Op)) : Prop where
  headOk : HeadOk total ring head
  chain : ChainAt ring head t rs
  read : rs.foldl (fun st r => readOps r st) (∅, []) = (∅, transactions)
  items : transactions.flatMap (itemsOf decode) = live.flatMap Prod.snd
  each : ∀ op ∈ live, t ≤ op.1 ∧ ∃ body ∈ transactions, itemsOf decode body = op.2

/-- The ring, the head and the tail between two operations. -/
structure Logbook (m : Mount) (live : List (ℕ × List Item)) : Prop where
  placed : m.disk.ring.Placed
  holds : Holds decode (totalBlocks m.sb) m.disk.ring live
  head : ∀ head, m.nextHead = some head → HeadOk (totalBlocks m.sb) m.disk.ring head
  ready : ∀ t, m.oldestRecord = some t → ∃ head rs transactions, m.nextHead = some head ∧
    Ready decode (totalBlocks m.sb) m.disk.ring head t live rs transactions

end

section

variable {decode : List (List UInt8) → List Item} {m m' : Mount}
  {live kept : List (ℕ × List Item)} {op : Checkpoint decode}

/-! ## Laying down records -/

variable {head : Head} {tid total t : ℕ} {parts : List (List Op × ℕ)} {ring : Ring}
  {rs : List LogRecord} {p : Plan} {events : List Event} {build : ℕ → List Op}

theorem appended_recordAt {tail used logsunit : ℕ} {group : List Op}
    (hsize : recordBlocksForLog tid group head.iclogSize logsunit = .ok used)
    (hfree : used ≤ head.freeBlocks) :
    Appended head (recordAt head tid group tail ((used - 1) * 512)) (nextAfter head used) := by
  obtain ⟨cap, hcap, -, -, hpos, -⟩ := recordBlocksForLog_spec hsize
  have hblocks : (recordAt head tid group tail ((used - 1) * 512)).blocks = used := by
    rw [recordAt_blocks (maxPayload_spec hcap).1]
    exact Nat.add_sub_cancel' hpos
  exact ⟨rfl, rfl, by rw [hblocks]; exact hfree, by rw [hblocks]; rfl, rfl, by rw [hblocks]; rfl⟩

/-- After the records of a checkpoint are laid down at the head, they follow those from the tail,
and the last of them is the newest of the ring. -/
theorem records_chain {logsunit : ℕ} (htotal : total < 2 ^ 32) (hhead : HeadOk total ring head)
    (hchain : ChainAt ring head t rs) (hring : ring.Placed)
    (hsized : Sized logsunit head.iclogSize tid parts) (hfree : blocksOf parts ≤ head.freeBlocks)
    (hops : ∀ part ∈ parts, ∀ op ∈ part.1, op.isUnmount = false) :
    HeadOk total ((placed tid t parts head).foldl Ring.writeRecord ring) (headAfter parts head) ∧
      ChainAt ((placed tid t parts head).foldl Ring.writeRecord ring) (headAfter parts head) t
        (rs ++ placed tid t parts head) ∧
      Ring.Placed ((placed tid t parts head).foldl Ring.writeRecord ring) ∧
      (parts ≠ [] → ∃ rs' r, rs ++ placed tid t parts head = rs' ++ [r] ∧
        scanWholeRing ((placed tid t parts head).foldl Ring.writeRecord ring) total =
          some (r.block, r)) := by
  induction parts generalizing head ring rs with
  | nil =>
    refine ⟨hhead, ?_, hring, fun hne => absurd rfl hne⟩
    rw [placed, List.append_nil]
    exact hchain
  | cons part parts ih =>
    obtain ⟨group, used⟩ := part
    simp only [blocksOf, List.map_cons, List.sum_cons] at hfree
    have happ : Appended head (recordAt head tid group t ((used - 1) * 512)) (nextAfter head used) :=
      appended_recordAt (hsized _ List.mem_cons_self) (by omega)
    have hchain' := hchain.append happ rfl (hops _ List.mem_cons_self)
    have hring' : (ring.writeRecord (recordAt head tid group t ((used - 1) * 512))).Placed :=
      hring.writeRecord ⟨hhead.cycle_pos, hhead.cycle_lt⟩
    have hfree' : blocksOf parts ≤ (nextAfter head used).freeBlocks :=
      Nat.le_sub_of_add_le (by rw [Nat.add_comm]; exact hfree)
    obtain ⟨h1, h2, h3, h4⟩ := ih (hhead.append htotal happ) hchain' hring'
      (fun part hp => hsized part (List.mem_cons_of_mem _ hp)) hfree'
      (fun part hp => hops part (List.mem_cons_of_mem _ hp))
    rw [List.append_assoc] at h2 h4
    refine ⟨h1, h2, h3, fun _ => ?_⟩
    cases parts with
    | nil => exact ⟨rs, _, rfl, hhead.scan happ⟩
    | cons part parts => exact h4 (by simp)

theorem placed_take (tid t j : ℕ) (parts : List (List Op × ℕ)) (head : Head) :
    (placed tid t parts head).take j = placed tid t (parts.take j) head := by
  induction parts generalizing head j with
  | nil => simp [placed]
  | cons part parts ih =>
    cases j with
    | zero => rfl
    | succ j =>
      rw [placed, List.take_succ_cons, List.take_succ_cons, placed, ih]

theorem placed_tid :
    ∀ r ∈ placed tid t parts head, r.tid = tid := by
  induction parts generalizing head with
  | nil => simp [placed]
  | cons part parts ih =>
    intro r hr
    rcases List.mem_cons.mp hr with rfl | hr
    · rfl
    · exact ih r hr

theorem placed_ops (tid t : ℕ) (parts : List (List Op × ℕ)) (head : Head) :
    (placed tid t parts head).flatMap LogRecord.ops = (parts.map Prod.fst).flatten := by
  induction parts generalizing head with
  | nil => rfl
  | cons part parts ih =>
    rw [placed, List.flatMap_cons, ih, List.map_cons, List.flatten_cons]
    rfl

theorem ready_at (h : HeadOk total ring head) :
    Ready decode total ring head (lsnOf head) [] [] [] :=
  ⟨h, .nil h.block_lt, rfl, rfl, by simp⟩

theorem isUnmount_build (op : Checkpoint decode) (tid : ℕ) :
    ∀ o ∈ op.build tid, o.isUnmount = false := by
  intro o ho
  rcases List.mem_append.mp (show o ∈ (startOp :: op.body tid) ++ [commitOp] from ho) with ho | ho
  · rcases List.mem_cons.mp ho with rfl | ho
    · rfl
    · have hplain := op.plain tid o ho
      simp only [Op.isPlain, Bool.and_eq_true, Bool.not_eq_true'] at hplain
      exact hplain.2
  · rw [List.mem_singleton.mp ho]
    rfl

theorem foldl_readOps_placed {transactions : List (List Op)}
    (hread : rs.foldl (fun st r => readOps r st) (∅, []) = (∅, transactions)) :
    (rs ++ placed tid t parts head).foldl (fun st r => readOps r st) (∅, []) =
      ((parts.map Prod.fst).flatten).foldl (readOp tid) (∅, transactions) := by
  rw [List.foldl_append, hread, foldl_readOps placed_tid, placed_ops]

/-! ## The pad -/

def padBody (tid : ℕ) : List Op :=
  [⟨0, transHeader tid xfsTransCheckpoint 0⟩]

theorem isTransHeader_transHeader (tid kind n flags : ℕ) :
    isTransHeader ⟨flags, transHeader tid kind n⟩ = true := by
  have hlen : (transHeader tid kind n).length = 16 := by
    simp [transHeader]
  have hmagic : Bytes.slice (transHeader tid kind n) 0 4 = Bytes.leBytes 4 xfsTransHeaderMagic := by
    simp [transHeader, Bytes.slice]
  rw [isTransHeader, hlen, hmagic, Bytes.leValue_leBytes]
  decide

theorem readOps_pad (head : Head) (tid tail : ℕ) :
    readOps (padRecord head tid tail) (∅, []) = (∅, [padBody tid]) := by
  have hplain : ∀ op ∈ padBody tid, op.isPlain = true := by
    intro op hop
    rw [List.mem_singleton.mp hop]
    simp [Op.isPlain, Op.isStart, Op.isCommit, Op.isUnmount]
  exact foldl_readOp_transaction tid [] hplain

theorem padRecord_ops (head : Head) (tid tail : ℕ) :
    ∀ op ∈ (padRecord head tid tail).ops, op.isUnmount = false := by
  intro op hop
  change op ∈ [_, _, _] at hop
  simp only [List.mem_cons, List.not_mem_nil, or_false] at hop
  rcases hop with rfl | rfl | rfl <;> simp [Op.isUnmount, Nat.testBit]

theorem appended_pad {tail : ℕ} (hfree : 2 ≤ head.freeBlocks) (hsize : head.iclogSize ≤ 32768) :
    Appended head (padRecord head tid tail) (nextAfter head head.freeBlocks) := by
  have hblocks : (padRecord head tid tail).blocks = head.freeBlocks := by
    rw [padRecord, recordAt_blocks hsize]
    omega
  exact ⟨rfl, rfl, by rw [hblocks], by rw [hblocks]; rfl, rfl, by rw [hblocks]; rfl⟩

theorem holds_pad (hhead : HeadOk total ring head)
    (happ : Appended head (padRecord head tid (lsnOf head)) (nextAfter head head.freeBlocks)) :
    Holds decode total (ring.writeRecord (padRecord head tid (lsnOf head))) [] := by
  have hchain := (@ChainAt.nil ring head hhead.block_lt).append happ rfl (padRecord_ops _ _ _)
  have hend : (nextAfter head head.freeBlocks).block ≤ total := hhead.stop.le
  have hout := outstanding_of_chain hchain (hhead.scan happ) hhead.cycle_pos hend
  refine ⟨⟨[padBody tid], ?_, ?_⟩, by simp⟩
  · rw [hout, List.nil_append, List.foldl_cons, List.foldl_nil, readOps_pad]
  · -- a pad's only region is a transaction header, which is no item
    rfl

section

variable {head : Head} {t tid total logsunit : ℕ} {ring ring' : Ring} {rs : List LogRecord}
  {transactions : List (List Op)} {parts : List (List Op × ℕ)}

/-- The ring once some of a checkpoint's records are on it: they follow those from the tail, and
what a replay reads are their operations. -/
structure Extended (decode : List (List UInt8) → List Item) (total : ℕ) (ring : Ring) (head : Head)
    (t tid : ℕ) (rs : List LogRecord) (transactions : List (List Op))
    (parts : List (List Op × ℕ)) : Prop where
  headOk : HeadOk total ring (headAfter parts head)
  chain : ChainAt ring (headAfter parts head) t (rs ++ placed tid t parts head)
  placed : ring.Placed
  newest : ∃ bb r, scanWholeRing ring total = some (bb, r) ∧ r.tailLsn = t
  outstanding : outstanding ring total =
    .ok (((parts.map Prod.fst).flatten).foldl (readOp tid) (∅, transactions)).2

theorem Ready.extend (hready : Ready decode total ring head t live rs transactions)
    (htotal : total < 2 ^ 32) (hring : ring.Placed)
    (hsized : Sized logsunit head.iclogSize tid parts) (hfree : blocksOf parts ≤ head.freeBlocks)
    (hne : parts ≠ []) (hops : (parts.map Prod.fst).flatten <+: op.build tid) :
    Extended decode total ((placed tid t parts head).foldl Ring.writeRecord ring) head t tid rs
      transactions parts := by
  have hunmount : ∀ part ∈ parts, ∀ o ∈ part.1, o.isUnmount = false := by
    intro part hpart o ho
    apply isUnmount_build op tid
    exact hops.subset (List.mem_flatten.mpr ⟨part.1, List.mem_map.mpr ⟨part, hpart, rfl⟩, ho⟩)
  obtain ⟨hhead, hchain, hplaced, hlast⟩ :=
    records_chain htotal hready.headOk hready.chain hring hsized hfree hunmount
  obtain ⟨rs', r, heq, hscan⟩ := hlast hne
  have hread := @foldl_readOps_placed head tid t parts rs transactions hready.read
  have hchain' := hchain
  rw [heq] at hchain' hread
  have hout := outstanding_of_chain hchain' hscan hhead.cycle_pos
    ((Nat.le_add_right _ _).trans hhead.stop.le)
  rw [hread] at hout
  exact ⟨hhead, hchain, hplaced, ⟨_, r, hscan, (hchain'.fields r (by simp)).2⟩, hout⟩

theorem Extended.logged {all : List (List Op)} {ops : List (ℕ × List Item)}
    (h : Extended decode total ring' head t tid rs transactions parts)
    (hall : (((parts.map Prod.fst).flatten).foldl (readOp tid) (∅, transactions)).2 = all)
    (hops : ∀ op ∈ ops, t ≤ op.1 ∧ ∃ body ∈ all, itemsOf decode body = op.2) :
    ∀ op ∈ ops, Logged decode total ring' op := by
  intro op hop
  obtain ⟨bb, r, hscan, htail⟩ := h.newest
  obtain ⟨hle, body, hbody, hitems⟩ := hops op hop
  exact ⟨bb, r, all, hscan, by rw [htail]; exact hle, by rw [h.outstanding, hall], body, hbody,
    hitems⟩

section

variable (hready : Ready decode total ring head t live rs transactions)

include hready

theorem Ready.each_append {lsn : ℕ} (hle : t ≤ lsn) :
    ∀ x ∈ live ++ [(lsn, op.items)],
      t ≤ x.1 ∧ ∃ body ∈ transactions ++ [op.body tid], itemsOf decode body = x.2 := by
  intro x hx
  rcases List.mem_append.mp hx with hx | hx
  · obtain ⟨hle', body, hbody, hdec⟩ := hready.each x hx
    exact ⟨hle', body, List.mem_append_left _ hbody, hdec⟩
  · rw [List.mem_singleton.mp hx]
    exact ⟨hle, op.body tid, by simp, op.decoded tid⟩

theorem Ready.items_append (lsn : ℕ) : (transactions ++ [op.body tid]).flatMap (itemsOf decode) =
      (live ++ [(lsn, op.items)]).flatMap Prod.snd := by
  rw [List.flatMap_append, List.flatMap_append, hready.items, List.flatMap_singleton,
    List.flatMap_singleton, op.decoded]

/-- With some of a checkpoint's records on the ring, a replay reads the live operations, and the
new one too if its commit is there. -/
theorem Ready.some_records (hext : Extended decode total ring' head t tid rs transactions parts)
    (hops : (parts.map Prod.fst).flatten <+: op.build tid) :
    ∃ extra, (extra = [] ∨ ∃ lsn, extra = [(lsn, op.items)]) ∧
      Holds decode total ring' (live ++ extra) := by
  have hout := hext.outstanding
  rcases foldl_readOp_prefix tid transactions (op.plain tid) hops with hdone | hdone
  · rw [hdone] at hout
    refine ⟨[], .inl rfl, ⟨_, hout, ?_⟩, hext.logged hdone ?_⟩
    · rw [List.append_nil, hready.items]
    · rw [List.append_nil]
      exact hready.each
  · rw [hdone] at hout
    exact ⟨[(t, op.items)], .inr ⟨t, rfl⟩, ⟨_, hout, hready.items_append t⟩,
      hext.logged hdone (hready.each_append (le_refl t))⟩

theorem Ready.after {lsn : ℕ} (hext : Extended decode total ring' head t tid rs transactions parts)
    (hne : parts ≠ []) (hops : (parts.map Prod.fst).flatten = op.build tid)
    (hlsn : lsn = ((placed tid t parts head).map LogRecord.lsn).getLastD 0) :
    Ready decode total ring' (headAfter parts head) t (live ++ [(lsn, op.items)])
        (rs ++ placed tid t parts head) (transactions ++ [op.body tid]) ∧
      Holds decode total ring' (live ++ [(lsn, op.items)]) := by
  have hread := @foldl_readOps_placed head tid t parts rs transactions hready.read
  rw [hops, Checkpoint.build, foldl_readOp_transaction tid transactions (op.plain tid)] at hread
  have hdone : (((parts.map Prod.fst).flatten).foldl (readOp tid) (∅, transactions)).2 =
      transactions ++ [op.body tid] := by
    rw [hops, Checkpoint.build, foldl_readOp_transaction tid transactions (op.plain tid)]
  have hle : t ≤ lsn := by
    obtain ⟨last, hmem, hval⟩ : ∃ last ∈ placed tid t parts head, lsn = last.lsn := by
      rcases List.eq_nil_or_concat (placed tid t parts head) with hnil | ⟨init, last, hcat⟩
      · cases parts with
        | nil => exact absurd rfl hne
        | cons part parts => exact absurd hnil (by simp [placed])
      · rw [List.concat_eq_append] at hcat
        refine ⟨last, by rw [hcat]; simp, ?_⟩
        rw [hlsn, hcat, List.map_append, List.map_singleton, List.getLastD_concat]
    rw [hval]
    exact hext.chain.tail_le last (List.mem_append_right _ hmem)
  have heach := @Ready.each_append decode live op head t tid total ring rs transactions hready lsn hle
  have hitems := @Ready.items_append decode live op head t tid total ring rs transactions hready lsn
  have hout := hext.outstanding
  rw [hdone] at hout
  exact ⟨⟨hext.headOk, hext.chain, hread, hitems, heach⟩,
    ⟨_, hout, hitems⟩, hext.logged hdone heach⟩

end

end

/-! ## Between two operations -/

theorem Logbook.congr (h : Logbook decode m live) (hsb : m'.sb = m.sb) (hring : m'.disk.ring = m.disk.ring)
    (hold : m'.oldestRecord = m.oldestRecord) (hnext : m'.nextHead = m.nextHead) :
    Logbook decode m' live := by
  obtain ⟨hplaced, hholds, hhead, hready⟩ := h
  constructor
  · rw [hring]
    exact hplaced
  · rw [hsb, hring]
    exact hholds
  · rw [hsb, hring, hnext]
    exact hhead
  · rw [hsb, hring, hold, hnext]
    exact hready

theorem Logbook.settle (h : Logbook decode m live) : Logbook decode m.settle live := by
  have hring : m.settle.disk.ring = m.disk.ring := by rw [disk_settle]
  constructor
  · rw [hring]
    exact h.placed
  · rw [hring]
    exact h.holds
  · rw [hring]
    exact h.head
  · intro t ht
    cases ht

theorem Logbook.findHead (h : Logbook decode m live) (hfind : m.findHead = .ok head) :
    HeadOk (totalBlocks m.sb) m.disk.ring head := by
  unfold Mount.findHead at hfind
  cases hnext : m.nextHead with
  | some known =>
    rw [hnext] at hfind
    cases hfind
    exact h.head head hnext
  | none =>
    rw [hnext] at hfind
    exact head_spec h.placed hfind

theorem findHead_settle (m : Mount) : m.settle.findHead = m.findHead := by
  have hring : m.settle.disk.ring = m.disk.ring := by rw [disk_settle]
  unfold findHead
  rw [hring]
  rfl

def keptFor (m : Mount) (p : Plan) (live : List (ℕ × List Item)) : List (ℕ × List Item) :=
  if p.wraps = true ∨ m.oldestRecord = none then [] else live

theorem keptFor_of_none (h : m.oldestRecord = none) : m.keptFor p live = [] :=
  if_pos (.inr h)

theorem keptFor_of_some (hwraps : p.wraps = false) (h : m.oldestRecord = some t) :
    m.keptFor p live = live := by
  apply if_neg
  rw [hwraps, h]
  rintro (hno | hno) <;> cases hno

/-- With no record outstanding, the gap at the end of the ring can be filled. No header comes after
the head then. -/
theorem Logbook.gap (h : Logbook decode m live) (hold : m.oldestRecord = none)
    (hfind : m.findHead = .ok p.head) (hone : p.head.freeBlocks ≠ 1)
    (hsize : p.head.iclogSize ≤ 32768) :
    (∃ kept, (kept = live ∨ kept = []) ∧
        Logbook decode (m.emit ((gapRecords p).map .log)) kept) ∧
      ∀ b < totalBlocks m.sb, ∀ r, (m.emit ((gapRecords p).map .log)).disk.ring b = some (r, 0) →
        r.lsn ≤ lsnOf p.head := by
  have hhead := h.findHead hfind
  unfold gapRecords
  split
  · next hfree =>
    have happ := @appended_pad p.head p.tid (lsnOf p.head) (by omega) hsize
    have hdisk := disk_emit_log m [padRecord p.head p.tid (lsnOf p.head)]
    refine ⟨⟨[], .inr rfl, ?_, ?_, ?_, ?_⟩, ?_⟩
    · rw [hdisk]
      exact h.placed.writeRecord ⟨hhead.cycle_pos, hhead.cycle_lt⟩
    · rw [hdisk]
      exact holds_pad hhead happ
    · -- the head kept from before still lies past every header but the pad's
      intro head hnext
      have hsame : head = p.head := by
        unfold Mount.findHead at hfind
        rw [show m.nextHead = some head from hnext] at hfind
        exact Except.ok.inj hfind
      subst hsame
      rw [hdisk]
      refine ⟨hhead.stop, hhead.block_lt, hhead.cycle_pos, hhead.cycle_lt, ?_⟩
      intro b hb hne r hr
      rcases Ring.header_writeRecord hr with ⟨heq, -⟩ | hr
      · exact absurd heq hne
      · exact hhead.older b hb hne r hr
    · intro t ht
      change m.oldestRecord = some t at ht
      rw [hold] at ht
      cases ht
    · intro b hb r hr
      rw [hdisk] at hr
      exact hhead.le_of_writeRecord happ hb hr
  · next hfree =>
    rw [List.map_nil, emit_nil]
    refine ⟨⟨live, .inl rfl, h⟩, ?_⟩
    intro b hb r hr
    have hstop := hhead.stop
    exact (hhead.older b hb (by omega) r hr).le

/-! ## Moments of a commit -/

@[simp] theorem entered_base (m : Mount) (p : Plan) : (m.entered p).base = m.base := by
  unfold entered
  split <;> rfl

theorem journal_push {o : Overlay} (h : events <+: pushEvents o) :
    ∀ ev ∈ events, ev.journal = true := by
  intro ev hev
  obtain ⟨s, -, rfl⟩ := List.mem_map.mp (h.subset hev)
  rfl

theorem journal_log (h : events <+: rs.map .log) :
    ∀ ev ∈ events, ev.journal = true := by
  intro ev hev
  obtain ⟨r, -, rfl⟩ := List.mem_map.mp (h.subset hev)
  rfl

def Between (m : Mount) (home : ℕ → UInt8) : Prop :=
  ∀ a, home a = m.disk.home a ∨ home a = m.view a

def Kept (m : Mount) (live kept : List (ℕ × List Item)) (home : ℕ → UInt8) : Prop :=
  (kept = live ∧ Between m home) ∨
    (kept = [] ∧ (home = m.view ∨ m.oldestRecord = none ∧ Between m home))

/-- What a crash finds at a moment of a commit from `m`, which logs `items`. -/
def Moment (decode : List (List UInt8) → List Item) (m : Mount) (live : List (ℕ × List Item))
    (items : List Item) (d : Disk) : Prop :=
  ∃ kept extra, Kept m live kept d.home ∧ (extra = [] ∨ ∃ lsn, extra = [(lsn, items)]) ∧
    Holds decode (totalBlocks m.sb) d.ring (kept ++ extra)

theorem Between.refl (m : Mount) : Between m m.disk.home :=
  fun _ => .inl rfl

theorem Kept.refl (m : Mount) (live : List (ℕ × List Item)) : Kept m live live m.disk.home :=
  .inl ⟨rfl, .refl m⟩

theorem Kept.push {home home' : ℕ → UInt8} (h : Kept m live kept home)
    (hpush : ∀ a, home' a = home a ∨ home' a = m.view a) : Kept m live kept home' := by
  have hbetween : Between m home → Between m home' := by
    intro hb a
    rcases hpush a with hsame | hview
    · rw [hsame]
      exact hb a
    · exact .inr hview
  rcases h with ⟨hkept, hb⟩ | ⟨hkept, rfl | ⟨hold, hb⟩⟩
  · exact .inl ⟨hkept, hbetween hb⟩
  · refine .inr ⟨hkept, .inl (funext fun a => ?_)⟩
    rcases hpush a with hsame | hview
    · exact hsame
    · exact hview
  · exact .inr ⟨hkept, .inr ⟨hold, hbetween hb⟩⟩

variable {items : List Item}

section

variable (h : Logbook decode m live)

include h

theorem Moment.early {d : Disk} (hhome : Between m d.home) (hring : d.ring = m.disk.ring) :
    Moment decode m live items d := by
  refine ⟨live, [], .inl ⟨rfl, hhome⟩, .inl rfl, ?_⟩
  rw [hring, List.append_nil]
  exact h.holds

theorem Logbook.moment_push {t : List Event} (hpre : t <+: pushEvents m.overlay) :
    Moment decode m live items (m.emit t).disk :=
  .early h (disk_emit_push hpre).2 (disk_emit_push hpre).1

theorem Logbook.moment_start : Moment decode m live items m.disk :=
  .early h (.refl m) rfl

theorem Logbook.moments_wrap (hfind : m.findHead = .ok p.head) (hone : p.head.freeBlocks ≠ 1)
    (hsize : p.head.iclogSize ≤ 32768) :
    Cuts (fun t => Moment decode m live items (m.emit t).disk)
      (pushEvents m.overlay ++ (gapRecords p).map .log) := by
  refine cuts_append.mpr ⟨fun t ht => h.moment_push ht, ?_⟩
  intro t ht
  have hdisk := (disk_settle_emit m t).symm
  have hwhole : Moment decode m live items m.settle.disk := h.moment_push (List.prefix_refl _)
  have hhead := h.findHead hfind
  unfold gapRecords at ht
  split at ht
  · next hfree =>
    rcases List.prefix_concat_iff.mp (show t <+: [] ++ [_] from ht) with rfl | hnil
    · have happ := @appended_pad p.head p.tid (lsnOf p.head) (by omega) hsize
      have hpad := disk_emit_log m.settle [padRecord p.head p.tid (lsnOf p.head)]
      refine ⟨[], [], .inr ⟨rfl, .inl ?_⟩, .inl rfl, ?_⟩
      · rw [hdisk]
        change (m.settle.emit ([_].map .log)).disk.home = _
        rw [hpad, disk_settle]
      · rw [hdisk]
        change Holds decode _ (m.settle.emit ([_].map .log)).disk.ring _
        rw [hpad, disk_settle]
        exact holds_pad hhead happ
    · rw [hdisk, List.prefix_nil.mp hnil, emit_nil]
      exact hwhole
  · rw [hdisk, List.prefix_nil.mp ht, emit_nil]
    exact hwhole

theorem Logbook.enter_wrapped (hp : Planned m build p) (hcan : CanEnter p) (hwraps : p.wraps = true) :
    (∃ kept, Kept m live kept (m.wrapped p).disk.home ∧ Logbook decode (m.wrapped p) kept) ∧
      (m.wrapped p).disk.home = m.view ∧
      HeadOk (totalBlocks m.sb) (m.wrapped p).disk.ring (wrappedHead p.head) := by
  obtain ⟨hone, -, hcycle⟩ := hcan hwraps
  obtain ⟨cap, hcap⟩ := hp.fits
  obtain ⟨⟨kept, hkept, hgap⟩, hle⟩ := h.settle.gap rfl ((findHead_settle m).trans hp.head) hone
    (maxPayload_spec hcap).1
  have hhome : (m.wrapped p).disk.home = m.view := by
    change (m.settle.emit ((gapRecords p).map .log)).disk.home = _
    rw [disk_emit_log, disk_settle]
  refine ⟨⟨kept, ?_, hgap.congr rfl rfl rfl rfl⟩, hhome,
    (h.findHead hp.head).wrap rfl rfl hcycle (h.findHead hp.head).stop hle⟩
  rcases hkept with rfl | rfl
  · exact .inl ⟨rfl, fun a => .inr (congrFun hhome a)⟩
  · exact .inr ⟨rfl, .inl hhome⟩

end

theorem Logbook.kept_straight (m : Mount) (p : Plan) (live : List (ℕ × List Item)) :
    p.wraps = false → Kept m live (m.keptFor p live) m.disk.home := by
  intro hwraps
  cases hold : m.oldestRecord with
  | none =>
    rw [keptFor_of_none hold]
    exact .inr ⟨rfl, .inr ⟨hold, .refl m⟩⟩
  | some t =>
    rw [keptFor_of_some hwraps hold]
    exact .refl m live

theorem Logbook.enter (h : Logbook decode m live) (hp : Planned m build p) (hcan : CanEnter p) :
    (∃ kept, Kept m live kept (m.entered p).disk.home ∧ Logbook decode (m.entered p) kept) ∧
      Kept m live (m.keptFor p live) (m.entered p).disk.home ∧
      ∃ rs transactions, Ready decode (totalBlocks m.sb) (m.entered p).disk.ring (chosenHead p)
        (m.tailFor p) (m.keptFor p live) rs transactions := by
  cases hwraps : p.wraps with
  | false =>
    have hentered : m.entered p = m := by rw [entered, hwraps, if_neg Bool.false_ne_true]
    have hchosen : chosenHead p = p.head := by rw [chosenHead, hwraps, if_neg Bool.false_ne_true]
    rw [tailFor, hentered, hchosen]
    refine ⟨⟨live, .refl m live, h⟩, Logbook.kept_straight m p live hwraps, ?_⟩
    cases hold : m.oldestRecord with
    | none =>
      rw [keptFor_of_none hold]
      exact ⟨[], [], ready_at (h.findHead hp.head)⟩
    | some t =>
      rw [keptFor_of_some hwraps hold]
      obtain ⟨head, rs, transactions, hnext, hready⟩ := h.ready t hold
      have hsame : head = p.head := by
        have hfind := hp.head
        unfold Mount.findHead at hfind
        rw [hnext] at hfind
        exact Except.ok.inj hfind
      rw [← hsame]
      exact ⟨rs, transactions, hready⟩
  | true =>
    have hentered : m.entered p = m.wrapped p := by rw [entered, hwraps, if_pos rfl]
    have hchosen : chosenHead p = wrappedHead p.head := by rw [chosenHead, hwraps, if_pos rfl]
    have hnone : m.keptFor p live = [] := if_pos (.inl hwraps)
    obtain ⟨hkept, hhome, hhead⟩ := h.enter_wrapped hp hcan hwraps
    rw [tailFor, hentered, hchosen, hnone]
    exact ⟨hkept, .inr ⟨rfl, .inl hhome⟩, [], [], ready_at hhead⟩

theorem Logbook.moments_enter (h : Logbook decode m live) (hp : Planned m build p)
    (hcan : CanEnter p) :
    ∃ events, (m.entered p).trace = m.trace ++ events ∧ (∀ ev ∈ events, ev.journal = true) ∧
      Cuts (fun t => Moment decode m live items (m.emit t).disk) events := by
  cases hwraps : p.wraps with
  | false =>
    have hentered : m.entered p = m := by rw [entered, hwraps, if_neg Bool.false_ne_true]
    rw [hentered]
    refine ⟨[], (List.append_nil _).symm, by simp, cuts_nil.mpr ?_⟩
    rw [emit_nil]
    exact h.moment_start
  | true =>
    have hentered : m.entered p = m.wrapped p := by rw [entered, hwraps, if_pos rfl]
    obtain ⟨hone, -, -⟩ := hcan hwraps
    obtain ⟨cap, hcap⟩ := hp.fits
    rw [hentered]
    refine ⟨pushEvents m.overlay ++ (gapRecords p).map Event.log,
      List.append_assoc m.trace (pushEvents m.overlay) _, ?_,
      h.moments_wrap hp.head hone (maxPayload_spec hcap).1⟩
    intro ev hev
    rcases List.mem_append.mp hev with hev | hev
    · exact journal_push (List.prefix_refl _) ev hev
    · exact journal_log (List.prefix_refl _) ev hev

theorem disk_entered_emit (htrace : (m.entered p).trace = m.trace ++ events) (t : List Event) :
    ((m.entered p).emit t).disk = (m.emit (events ++ t)).disk := by
  change ((m.entered p).trace ++ t).foldl Event.apply (m.entered p).base = _
  rw [htrace, entered_base, List.append_assoc]
  rfl

theorem Logbook.moments_records (h : Logbook decode m live) (hp : Planned m op.build p)
    (hcan : CanEnter p) (hfits : p.needed ≤ (chosenHead p).freeBlocks) :
    Cuts (fun t => Moment decode m live op.items ((m.entered p).emit t).disk)
      ((m.recordsOf p).map .log) := by
  obtain ⟨⟨kept₀, hkept₀, hentered⟩, hkept, rs, transactions, hready⟩ := h.enter hp hcan
  intro events hpre
  obtain ⟨written, hwritten, rfl⟩ := List.prefix_map_iff.mp hpre
  rw [List.prefix_iff_eq_take.mp hwritten, recordsOf, placed_take]
  generalize written.length = j
  by_cases hnil : p.parts.take j = []
  · rw [hnil, Mount.placed, List.map_nil, emit_nil]
    refine ⟨kept₀, [], hkept₀, .inl rfl, ?_⟩
    rw [List.append_nil, ← entered_sb m p]
    exact hentered.holds
  have hsized : Sized m.sb.logsunit (chosenHead p).iclogSize p.tid (p.parts.take j) := by
    rw [chosenHead_iclogSize]
    exact fun part hpart => hp.sized part (List.mem_of_mem_take hpart)
  have hfree : blocksOf (p.parts.take j) ≤ (chosenHead p).freeBlocks := by
    refine le_trans ?_ hfits
    have hsplit : blocksOf p.parts = blocksOf (p.parts.take j) + blocksOf (p.parts.drop j) := by
      rw [blocksOf, blocksOf, blocksOf, ← List.sum_append, ← List.map_append,
        List.take_append_drop]
    rw [← hp.blocks]
    omega
  have hops : ((p.parts.take j).map Prod.fst).flatten <+: op.build p.tid := by
    rw [← hp.flatten, ← hp.groups, List.map_take]
    exact List.IsPrefix.flatten (List.take_prefix _ _)
  have hext := hready.extend (totalBlocks_lt m.sb) hentered.placed hsized hfree hnil hops
  obtain ⟨extra, hextra, hholds⟩ := hready.some_records hext hops
  refine ⟨m.keptFor p live, extra, ?_, hextra, ?_⟩
  · rw [disk_emit_log]
    exact hkept
  · rw [disk_emit_log]
    exact hholds

theorem disk_logged (m : Mount) (p : Plan) :
    (m.logged p).disk =
      ⟨(m.recordsOf p).foldl Ring.writeRecord (m.entered p).disk.ring, (m.entered p).disk.home⟩ := by
  have hdisk : (m.logged p).disk = ((m.entered p).emit ((m.recordsOf p).map .log)).disk := rfl
  rw [hdisk, disk_emit_log]

theorem Logbook.logged (h : Logbook decode m live) (hp : Planned m op.build p) (hcan : CanEnter p)
    (hfits : p.needed ≤ (chosenHead p).freeBlocks) {lsn : ℕ}
    (hlsn : lsn = ((m.recordsOf p).map LogRecord.lsn).getLastD 0) :
    Kept m live (m.keptFor p live) (m.logged p).disk.home ∧
      Logbook decode (m.logged p) (m.keptFor p live ++ [(lsn, op.items)]) := by
  obtain ⟨⟨kept₀, hkept₀, hentered⟩, hkept, rs, transactions, hready⟩ := h.enter hp hcan
  have hsized : Sized m.sb.logsunit (chosenHead p).iclogSize p.tid p.parts := by
    rw [chosenHead_iclogSize]
    exact hp.sized
  have hops : (p.parts.map Prod.fst).flatten = op.build p.tid := by
    rw [hp.groups, hp.flatten]
  have hext := hready.extend (totalBlocks_lt m.sb) hentered.placed hsized
    (by rw [hp.blocks]; exact hfits) hp.nonempty (show _ <+: op.build p.tid from hops ▸ List.prefix_refl _)
  obtain ⟨hready', hholds⟩ := hready.after hext hp.nonempty hops hlsn
  have hsb : (m.logged p).sb = m.sb := entered_sb m p
  refine ⟨by rw [disk_logged]; exact hkept, ?_, ?_, ?_, ?_⟩
  · rw [disk_logged]
    exact hext.placed
  · rw [disk_logged, hsb]
    exact hholds
  · intro head hnext
    cases hnext
    rw [disk_logged, hsb]
    exact hready'.headOk
  · intro t ht
    cases ht
    rw [disk_logged, hsb]
    exact ⟨_, _, _, rfl, hready'⟩

/-! ## What a commit leaves -/

theorem entered_overlay (m : Mount) (p : Plan) :
    (m.entered p).overlay = m.overlay ∨ (m.entered p).overlay = .empty := by
  unfold entered
  split
  · exact .inr rfl
  · exact .inl rfl

theorem view_entered (m : Mount) (p : Plan) : (m.entered p).view = m.view := by
  unfold entered
  split
  · change (m.settle.emit ((gapRecords p).map .log)).view = _
    rw [view_emit_log, view_settle]
  · rfl

theorem view_logged (m : Mount) (p : Plan) : (m.logged p).view = m.view := by
  change ((m.entered p).emit ((m.recordsOf p).map .log)).view = _
  rw [view_emit_log, view_entered]

/-- What a commit, or a push, makes of a mount: nothing of what it reads changes, every event is
the journal's own, and every moment is one a crash may find. -/
structure Advance (decode : List (List UInt8) → List Item) (m : Mount)
    (live : List (ℕ × List Item)) (items : List Item) (m' : Mount) : Prop where
  base : m'.base = m.base
  sb : m'.sb = m.sb
  view : m'.view = m.view
  overlay : m'.overlay = m.overlay ∨ m'.overlay = .empty
  trace : ∃ events, m'.trace = m.trace ++ events ∧ (∀ ev ∈ events, ev.journal = true) ∧
    Cuts (fun t => Moment decode m live items (m.emit t).disk) events

section

variable (h : Logbook decode m live)

include h

theorem Advance.refl : Advance decode m live items m where
  base := rfl
  sb := rfl
  view := rfl
  overlay := .inl rfl
  trace := ⟨[], (List.append_nil _).symm, by simp, cuts_nil.mpr (by rw [emit_nil]; exact h.moment_start)⟩

theorem Advance.push (hpre : events <+: pushEvents m.overlay) :
    Advance decode m live items { m.emit events with writeFailed := true } where
  base := rfl
  sb := rfl
  view := view_emit_push hpre
  overlay := .inl rfl
  trace := ⟨events, rfl, journal_push hpre, fun _ ht => h.moment_push (ht.trans hpre)⟩

theorem Advance.settle : Advance decode m live items m.settle where
  base := rfl
  sb := rfl
  view := view_settle m
  overlay := .inr rfl
  trace := ⟨pushEvents m.overlay, rfl, journal_push (List.prefix_refl _),
    fun _ ht => h.moment_push ht⟩

theorem Logbook.sync :
    Advance decode m live items (finalState (sync m)) := by
  cases hsync : Mount.sync m with
  | ok u m' =>
    obtain ⟨-, -, rfl⟩ := sync_eq_ok hsync
    exact .settle h
  | error e m' =>
    rcases sync_eq_error hsync with ⟨rfl, -⟩ | ⟨-, events, hpre, rfl⟩
    · exact .refl h
    · exact .push h hpre

theorem Logbook.wrapRing_error {e : Error} (hp : Planned m build p) (hfail : m.writeFailed = false)
    (hwr : m.writable = true) (hwrap : wrapRing p m = .error e m') :
    Advance decode m live items m' ∧ (m'.writeFailed = false →
      m'.overlay = .empty ∧ ∃ kept, Kept m live kept m'.disk.home ∧ Logbook decode m' kept) := by
  obtain ⟨cap, hcap⟩ := hp.fits
  have hsize := (maxPayload_spec hcap).1
  have hsettled : Kept m live live m.settle.disk.home := by
    rw [disk_settle]
    exact .inl ⟨rfl, fun _ => .inr rfl⟩
  rcases wrapRing_eq_error hfail hwr hwrap with
    ⟨-, events, hpre, rfl⟩ | hpad | ⟨-, -, hone, -, -, rfl⟩
  · exact ⟨.push h hpre, fun hf => by cases hf⟩
  · rcases padGap_eq_error hpad with ⟨-, -, -, rfl⟩ | ⟨-, -, rfl⟩ | ⟨hlo, -, -, events, hpre, rfl⟩
    · have hset : Advance decode m live items m.settle := .settle h
      exact ⟨⟨rfl, rfl, hset.view, .inr rfl, hset.trace⟩, fun hf => by cases hf⟩
    · exact ⟨.settle h, fun _ => ⟨rfl, live, hsettled, h.settle⟩⟩
    · have hcuts := @Logbook.moments_wrap decode m live p items h hp.head (by omega) hsize
      refine ⟨⟨rfl, rfl, ?_, .inr rfl, pushEvents m.overlay ++ events,
        List.append_assoc m.trace _ _, ?_, ?_⟩, fun hf => by cases hf⟩
      · obtain ⟨written, -, rfl⟩ := List.prefix_map_iff.mp hpre
        exact (view_emit_log m.settle written).trans (view_settle m)
      · intro ev hev
        rcases List.mem_append.mp hev with hev | hev
        · exact journal_push (List.prefix_refl _) ev hev
        · exact journal_log hpre ev hev
      · exact hcuts.shorten ((List.prefix_append_right_inj _).mpr hpre)
  · obtain ⟨⟨kept, hkept, hgap⟩, -⟩ :=
      h.settle.gap rfl ((findHead_settle m).trans hp.head) hone hsize
    refine ⟨⟨rfl, rfl, (view_emit_log m.settle _).trans (view_settle m), .inr rfl,
      pushEvents m.overlay ++ (gapRecords p).map Event.log, List.append_assoc m.trace _ _, ?_,
      h.moments_wrap hp.head hone hsize⟩, fun _ => ⟨rfl, kept, ?_, hgap⟩⟩
    · intro ev hev
      rcases List.mem_append.mp hev with hev | hev
      · exact journal_push (List.prefix_refl _) ev hev
      · exact journal_log (List.prefix_refl _) ev hev
    · rw [disk_emit_log, disk_settle]
      rcases hkept with rfl | rfl
      · exact .inl ⟨rfl, fun _ => .inr rfl⟩
      · exact .inr ⟨rfl, .inl rfl⟩

theorem Logbook.moments_checkpoint (hp : Planned m op.build p) (hcan : CanEnter p)
    (hfits : p.needed ≤ (chosenHead p).freeBlocks) :
    ∃ events, (m.entered p).trace = m.trace ++ events ∧ (∀ ev ∈ events, ev.journal = true) ∧
      Cuts (fun t => Moment decode m live op.items (m.emit t).disk)
        (events ++ (m.recordsOf p).map .log) := by
  obtain ⟨events, htrace, hjournal, hcuts⟩ :=
    @Logbook.moments_enter decode m live p _ op.items h hp hcan
  refine ⟨events, htrace, hjournal, cuts_append.mpr ⟨hcuts, ?_⟩⟩
  intro t ht
  rw [← disk_entered_emit htrace]
  exact h.moments_records hp hcan hfits t ht

end

theorem journal_append {as bs : List Event} (has : ∀ ev ∈ as, ev.journal = true)
    (hbs : ∀ ev ∈ bs, ev.journal = true) : ∀ ev ∈ as ++ bs, ev.journal = true := by
  intro ev hev
  rcases List.mem_append.mp hev with hev | hev
  · exact has ev hev
  · exact hbs ev hev

theorem Logbook.moments_push_logged (h : Logbook decode m live) (hp : Planned m op.build p)
    (hcan : CanEnter p) (hfits : p.needed ≤ (chosenHead p).freeBlocks) {t : List Event}
    (ht : t <+: pushEvents (m.entered p).overlay) :
    Moment decode m live op.items ((m.logged p).emit t).disk := by
  generalize hlsn : ((m.recordsOf p).map LogRecord.lsn).getLastD 0 = lsn
  obtain ⟨hkept, hlogged⟩ := h.logged hp hcan hfits hlsn.symm
  have hpush := @disk_emit_push (m.logged p) t ht
  refine ⟨m.keptFor p live, [(lsn, op.items)], hkept.push ?_, .inr ⟨lsn, rfl⟩, ?_⟩
  · intro a
    rw [← view_logged m p]
    exact hpush.2 a
  · have hsb : (m.logged p).sb = m.sb := entered_sb m p
    rw [hpush.1, ← hsb]
    exact hlogged.holds

theorem disk_logged_emit (htrace : (m.entered p).trace = m.trace ++ events) (t : List Event) :
    (m.emit (events ++ (m.recordsOf p).map Event.log ++ t)).disk = ((m.logged p).emit t).disk := by
  change (m.trace ++ (events ++ (m.recordsOf p).map Event.log ++ t)).foldl Event.apply m.base =
    ((m.entered p).trace ++ (m.recordsOf p).map Event.log ++ t).foldl Event.apply (m.entered p).base
  rw [htrace, entered_base]
  simp only [List.append_assoc]

theorem Logbook.commit_ok (h : Logbook decode m live) {lsn : ℕ}
    (hcommit : commitRecord op.build m = .ok lsn m') :
    Advance decode m live op.items m' ∧ m'.writeFailed = false ∧
      ∃ p, m.plan op.build = .ok p ∧ Kept m live (m.keptFor p live) m'.disk.home ∧
        Logbook decode m' (m.keptFor p live ++ [(lsn, op.items)]) ∧
        (m'.oldestRecord = none → maxDirtyBytes ≤ (m.entered p).overlay.bytes) := by
  obtain ⟨p, hplan, hfail, -, hcan, hfits, -, hlsn, hm'⟩ := commitRecord_eq_ok hcommit
  have hp := plan_spec hplan
  obtain ⟨hkept, hlogged⟩ := h.logged hp hcan hfits hlsn
  obtain ⟨events, htrace, hjournal, hcuts⟩ := h.moments_checkpoint hp hcan hfits
  have htrace' : (m.logged p).trace = m.trace ++ (events ++ (m.recordsOf p).map Event.log) := by
    change (m.entered p).trace ++ _ = _
    rw [htrace, List.append_assoc]
  have hjournal' := journal_append hjournal
    (journal_log (List.prefix_refl ((m.recordsOf p).map Event.log)))
  have hfail' : (m.entered p).writeFailed = false := by
    rw [entered_writeFailed]
    exact hfail
  split at hm'
  · next hbound =>
    subst hm'
    have hhome : Kept m live (m.keptFor p live) (m.logged p).settle.disk.home := by
      rw [disk_settle]
      exact hkept.push fun a => .inr (congrFun (view_logged m p) a)
    refine ⟨⟨entered_base m p, entered_sb m p, (view_settle _).trans (view_logged m p), .inr rfl,
      events ++ (m.recordsOf p).map Event.log ++ pushEvents (m.logged p).overlay, ?_, ?_, ?_⟩,
      hfail', p, hplan, hhome, hlogged.settle, fun _ => hbound⟩
    · change (m.logged p).trace ++ _ = _
      rw [htrace', List.append_assoc]
    · exact journal_append hjournal' (journal_push (List.prefix_refl _))
    · refine cuts_append.mpr ⟨hcuts, fun t ht => ?_⟩
      beta_reduce
      rw [disk_logged_emit htrace]
      exact h.moments_push_logged hp hcan hfits ht
  · subst hm'
    exact ⟨⟨entered_base m p, entered_sb m p, view_logged m p, entered_overlay m p, _, htrace',
      hjournal', hcuts⟩, hfail', p, hplan, hkept, hlogged, fun hno => by cases hno⟩

theorem Logbook.commit_error (h : Logbook decode m live) {e : Error}
    (hcommit : commitRecord op.build m = .error e m') :
    Advance decode m live op.items m' ∧ (m'.writeFailed = false →
      (m'.overlay = .empty ∨ m'.overlay = m.overlay ∧ m'.oldestRecord = m.oldestRecord) ∧
      ∃ kept, Kept m live kept m'.disk.home ∧ Logbook decode m' kept) := by
  have hrefl : Advance decode m live op.items m ∧ (m.writeFailed = false →
      (m.overlay = .empty ∨ m.overlay = m.overlay ∧ m.oldestRecord = m.oldestRecord) ∧
      ∃ kept, Kept m live kept m.disk.home ∧ Logbook decode m kept) :=
    ⟨.refl h, fun _ => ⟨.inr ⟨rfl, rfl⟩, live, .refl m live, h⟩⟩
  rcases commitRecord_eq_error hcommit with ⟨rfl, -⟩ | ⟨p, hplan, hfail, hwr, hlater⟩
  · exact hrefl
  have hp := plan_spec hplan
  rcases hlater with ⟨-, hwrap⟩ | ⟨hcan, hstop⟩
  · obtain ⟨hadv, hrest⟩ := h.wrapRing_error hp hfail hwr hwrap
    exact ⟨hadv, fun hf => ⟨.inl (hrest hf).1, (hrest hf).2⟩⟩
  obtain ⟨events, htrace, hjournal, hcuts⟩ :=
    @Logbook.moments_enter decode m live p _ op.items h hp hcan
  cases hstop with
  | tooLarge =>
    have hentered := (h.enter hp hcan).1
    refine ⟨⟨entered_base m p, entered_sb m p, view_entered m p, entered_overlay m p, events,
      htrace, hjournal, hcuts⟩, fun _ => ⟨?_, hentered⟩⟩
    unfold entered
    split
    · exact .inl rfl
    · exact .inr ⟨rfl, rfl⟩
  | offStripe =>
    exact ⟨⟨entered_base m p, entered_sb m p, view_entered m p, entered_overlay m p, events,
      htrace, hjournal, hcuts⟩, fun hf => by cases hf⟩
  | @record written hfits hio hpre =>
    obtain ⟨events, htrace, hjournal, hcuts⟩ := h.moments_checkpoint hp hcan hfits
    refine ⟨⟨entered_base m p, entered_sb m p, ?_, entered_overlay m p, events ++ written, ?_,
      journal_append hjournal (journal_log hpre), ?_⟩, fun hf => by cases hf⟩
    · obtain ⟨rs, -, rfl⟩ := List.prefix_map_iff.mp hpre
      exact (view_emit_log (m.entered p) rs).trans (view_entered m p)
    · change (m.entered p).trace ++ written = _
      rw [htrace, List.append_assoc]
    · exact hcuts.shorten ((List.prefix_append_right_inj _).mpr hpre)
  | @push written hfits hbound hio hpre =>
    obtain ⟨events, htrace, hjournal, hcuts⟩ := h.moments_checkpoint hp hcan hfits
    refine ⟨⟨entered_base m p, entered_sb m p, ?_, entered_overlay m p,
      events ++ (m.recordsOf p).map Event.log ++ written, ?_, ?_, ?_⟩, fun hf => by cases hf⟩
    · exact (@view_emit_push (m.logged p) written hpre).trans (view_logged m p)
    · change (m.entered p).trace ++ _ ++ written = _
      rw [htrace]
      simp only [List.append_assoc]
    · exact journal_append (journal_append hjournal (journal_log (List.prefix_refl _)))
        (journal_push hpre)
    · refine cuts_append.mpr ⟨hcuts, fun t ht => ?_⟩
      beta_reduce
      rw [disk_logged_emit htrace]
      exact h.moments_push_logged hp hcan hfits (ht.trans hpre)

/-! ## The beginning -/

structure Clean (m : Mount) : Prop where
  trace : m.trace = []
  overlay : m.overlay = .empty
  oldestRecord : m.oldestRecord = none
  nextHead : m.nextHead = none
  placed : m.base.ring.Placed
  log : inspect m.base.ring (totalBlocks m.sb) ≠ .needsReplay

theorem Clean.disk (h : Clean m) : m.disk = m.base := by
  rw [Mount.disk, h.trace]
  rfl

theorem Clean.logbook (h : Clean m) : Logbook decode m [] := by
  have hout : outstanding m.base.ring (totalBlocks m.sb) = .ok [] := by
    unfold outstanding
    split
    · rfl
    · exact if_neg h.log
  refine ⟨by rw [h.disk]; exact h.placed, ⟨⟨[], by rw [h.disk]; exact hout, rfl⟩, by simp⟩, ?_, ?_⟩
  · intro head hnext
    rw [h.nextHead] at hnext
    cases hnext
  · intro t ht
    rw [h.oldestRecord] at ht
    cases ht

end

end FsXfs.Mount
