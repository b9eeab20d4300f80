import FsXfs.Log.Recover

/-!
# Records end to end

Records that lie one after the other in the ring, and what a reader makes of them.
-/

namespace FsXfs.Log

open Redo

set_option autoImplicit false

def Chain : ℕ → List LogRecord → Prop
  | _, [] => True
  | b, r :: rs => r.block = b ∧ Chain (b + r.blocks) rs

def span (rs : List LogRecord) : ℕ :=
  (rs.map LogRecord.blocks).sum

variable {b : ℕ} {rs : List LogRecord} {r : LogRecord} {ring : Ring}

theorem chain_append {as bs : List LogRecord} :
    Chain b (as ++ bs) ↔ Chain b as ∧ Chain (b + span as) bs := by
  induction as generalizing b with
  | nil => exact ⟨fun h => ⟨trivial, h⟩, fun h => h.2⟩
  | cons r as ih =>
    have hspan : b + span (r :: as) = b + r.blocks + span as := by
      simp only [span, List.map_cons, List.sum_cons]
      omega
    rw [hspan]
    constructor
    · rintro ⟨hblock, hrest⟩
      obtain ⟨has, hbs⟩ := ih.mp hrest
      exact ⟨⟨hblock, has⟩, hbs⟩
    · rintro ⟨⟨hblock, has⟩, hbs⟩
      exact ⟨hblock, ih.mpr ⟨has, hbs⟩⟩

theorem Chain.end_le (h : Chain b rs) : ∀ r ∈ rs, r.block + r.blocks ≤ b + span rs := by
  induction rs generalizing b with
  | nil => simp
  | cons r rs ih =>
    obtain ⟨hblock, hrest⟩ := h
    intro r' hr'
    simp only [span, List.map_cons, List.sum_cons]
    rcases List.mem_cons.mp hr' with rfl | hr'
    · omega
    · have := ih hrest r' hr'
      simp only [span] at this
      omega

theorem Chain.le_block (h : Chain b rs) : ∀ r ∈ rs, b ≤ r.block := by
  induction rs generalizing b with
  | nil => simp
  | cons r rs ih =>
    intro r' hr'
    rcases List.mem_cons.mp hr' with rfl | hr'
    · exact h.1.ge
    · exact (Nat.le_add_right _ _).trans (ih h.2 r' hr')

theorem length_le_span (rs : List LogRecord) : rs.length ≤ span rs := by
  induction rs with
  | nil => exact Nat.zero_le _
  | cons r rs ih =>
    have hr := r.one_le_blocks
    simp only [span, List.map_cons, List.sum_cons, List.length_cons] at ih ⊢
    omega

theorem span_append (as bs : List LogRecord) : span (as ++ bs) = span as + span bs := by
  simp [span]

theorem span_le_of_prefix {as bs : List LogRecord} (h : as <+: bs) : span as ≤ span bs := by
  obtain ⟨rest, rfl⟩ := h
  rw [span_append]
  omega

/-! ## Reading a transaction -/

def startOp : Op := ⟨xlogStartTrans, []⟩
def commitOp : Op := ⟨xlogCommitTrans, []⟩

def transactionOps (body : List Op) : List Op :=
  startOp :: body ++ [commitOp]

theorem readOp_start (tid : ℕ) (done : List (List Op)) :
    readOp tid (∅, done) startOp = (AList.singleton tid [], done) := by
  rfl

theorem readOp_commit (tid : ℕ) (body : List Op) (done : List (List Op)) :
    readOp tid (AList.singleton tid body, done) commitOp = (∅, done ++ [body]) := by
  have hlook : (AList.singleton tid body : InFlight).lookup tid = some body := by
    rw [← AList.insert_empty, AList.lookup_insert]
  have herase : (AList.singleton tid body : InFlight).erase tid = ∅ := by
    apply AList.ext
    change List.kerase tid [(⟨tid, body⟩ : Sigma fun _ : ℕ => List Op)] = []
    simp [List.kerase]
  rw [readOp, if_neg (by decide), if_neg (by decide), if_pos (by decide), hlook]
  exact Prod.ext herase rfl

theorem foldl_readOp_transaction (tid : ℕ) {body : List Op} (done : List (List Op))
    (h : ∀ op ∈ body, op.isPlain = true) :
    (transactionOps body).foldl (readOp tid) (∅, done) = (∅, done ++ [body]) := by
  rw [transactionOps, List.foldl_append, List.foldl_cons (l := body), readOp_start,
    foldl_readOp_plain tid body [] done h, List.nil_append]
  exact readOp_commit tid body done

theorem foldl_readOp_prefix (tid : ℕ) {body ops : List Op} (done : List (List Op))
    (h : ∀ op ∈ body, op.isPlain = true) (hpre : ops <+: transactionOps body) :
    (ops.foldl (readOp tid) (∅, done)).2 = done ∨
      (ops.foldl (readOp tid) (∅, done)).2 = done ++ [body] := by
  rcases List.prefix_concat_iff.mp (show ops <+: (startOp :: body) ++ [commitOp] from hpre) with
    rfl | hpre
  · exact .inr (by rw [← transactionOps, foldl_readOp_transaction tid done h])
  · left
    cases ops with
    | nil => rfl
    | cons op ops =>
      obtain ⟨rfl, hbody⟩ := List.cons_prefix_cons.mp hpre
      rw [List.foldl_cons, readOp_start,
        foldl_readOp_plain tid ops [] done (fun op hop => h op (hbody.subset hop))]

theorem foldl_readOps {tid : ℕ} (h : ∀ r ∈ rs, r.tid = tid)
    (st : InFlight × List (List Op)) :
    rs.foldl (fun st r => readOps r st) st =
      (rs.flatMap LogRecord.ops).foldl (readOp tid) st := by
  induction rs generalizing st with
  | nil => rfl
  | cons r rs ih =>
    rw [List.foldl_cons, List.flatMap_cons, List.foldl_append,
      ih (fun r' hr' => h r' (List.mem_cons_of_mem _ hr')), readOps, h r List.mem_cons_self]

/-! ## Walking a chain -/

theorem intact_of_complete {total : ℕ} (h : ring.Complete r)
    (hend : r.block + r.blocks ≤ total) : intact ring total r.block r = true := by
  rw [intact, List.all_eq_true]
  intro k hk
  have hk' := List.mem_range.mp hk
  rw [decide_eq_true_eq, Nat.mod_eq_of_lt (by omega)]
  exact h k hk'

theorem ring_header (h : ring.Complete r) :
    ring r.block = some (r, 0) :=
  h 0 r.one_le_blocks

theorem walkFrom_chain {total b fuel : ℕ} {newest : LogRecord}
    {st : InFlight × List (List Op)} (hchain : Chain b (rs ++ [newest]))
    (hend : b + span (rs ++ [newest]) ≤ total)
    (hrec : ∀ r ∈ rs ++ [newest], ring.Complete r)
    (hlsn : ∀ r ∈ rs, r.lsn ≠ newest.lsn) (hfuel : rs.length < fuel) :
    walkFrom ring total newest fuel b st =
      .ok ((rs ++ [newest]).foldl (fun st r => readOps r st) st).2 := by
  induction rs generalizing b fuel st with
  | nil =>
    obtain ⟨fuel, rfl⟩ : ∃ n, fuel = n + 1 := ⟨fuel - 1, by simp at hfuel; omega⟩
    obtain ⟨rfl, -⟩ := hchain
    have hcomplete := hrec newest (by simp)
    rw [walkFrom, ring_header hcomplete]
    simp only [intact_of_complete hcomplete hend, if_true, List.nil_append, List.foldl_cons,
      List.foldl_nil]
  | cons r rs ih =>
    obtain ⟨fuel, rfl⟩ : ∃ n, fuel = n + 1 := ⟨fuel - 1, by simp at hfuel; omega⟩
    obtain ⟨rfl, hchain⟩ := hchain
    have hcomplete := hrec r (by simp)
    have hlast : 1 ≤ span (rs ++ [newest]) :=
      le_trans (by simp) (length_le_span (rs ++ [newest]))
    have hspan : span ((r :: rs) ++ [newest]) = r.blocks + span (rs ++ [newest]) := by
      simp [span]
    rw [walkFrom, ring_header hcomplete]
    simp only [intact_of_complete hcomplete (show r.block + r.blocks ≤ total by omega), if_true,
      if_neg (hlsn r List.mem_cons_self)]
    rw [Nat.mod_eq_of_lt (by omega)]
    exact ih hchain (by omega) (fun r' hr' => hrec r' (List.mem_cons_of_mem _ hr'))
      (fun r' hr' => hlsn r' (List.mem_cons_of_mem _ hr')) (by simpa using hfuel)

/-! ## What replay applies -/

def outstanding (ring : Ring) (total : ℕ) : Except Error (List (List Op)) :=
  match scanWholeRing ring total with
  | none => .ok []
  | some (_, newest) =>
    if inspect ring total = .needsReplay then walk ring total newest else .ok []

theorem recover_of_outstanding (decode : List (List UInt8) → List Item) {disk : Disk} {total : ℕ}
    {transactions : List (List Op)} (h : outstanding disk.ring total = .ok transactions) :
    recover decode disk total =
      .ok (replayItems (transactions.flatMap (itemsOf decode)) disk.home) := by
  unfold outstanding at h
  unfold recover
  cases hscan : scanWholeRing disk.ring total with
  | none =>
    rw [hscan] at h
    cases h
    rfl
  | some found =>
    rw [hscan] at h
    simp only at h ⊢
    split at h
    · rw [if_pos (by assumption), h]
      rfl
    · rw [if_neg (by assumption)]
      cases h
      rfl

theorem inspect_needsReplay {total bb : ℕ}
    (h : scanWholeRing ring total = some (bb, r)) (hops : ∀ op ∈ r.ops, op.isUnmount = false) :
    inspect ring total = .needsReplay := by
  rw [inspect, h]
  simp only
  split
  · rfl
  · next hlen =>
    split
    · rfl
    · obtain ⟨op, hop⟩ := List.length_eq_one_iff.mp (not_not.mp hlen)
      have hno := hops op (by rw [hop]; exact List.mem_singleton_self op)
      rw [hop, List.all_cons, hno, Bool.false_and, if_neg Bool.false_ne_true]

/-! ## The ring under a head -/

def Ring.Placed (ring : Ring) : Prop :=
  ∀ b r k, ring b = some (r, k) → r.block + k = b ∧ 0 < r.cycle ∧ r.cycle < 2 ^ 32

/-- `head` is where the next record of a log of `total` blocks goes: it ends with the head's free
blocks, and every record there is precedes it, the one it would overwrite apart. -/
structure HeadOk (total : ℕ) (ring : Ring) (head : Head) : Prop where
  stop : head.block + head.freeBlocks = total
  block_lt : head.block < 2 ^ 32
  cycle_pos : 0 < head.cycle
  cycle_lt : head.cycle < 2 ^ 32
  older : ∀ b < total, b ≠ head.block → ∀ r, ring b = some (r, 0) → r.lsn < lsnOf head

/-- The records from the tail `t` to `head`: end to end, in the head's cycle, all of them naming
`t` as the tail. -/
structure ChainAt (ring : Ring) (head : Head) (t : ℕ) (rs : List LogRecord) : Prop where
  cycle : t / 2 ^ 32 = head.cycle
  chain : Chain (t % 2 ^ 32) rs
  stop : t % 2 ^ 32 + span rs = head.block
  complete : ∀ r ∈ rs, ring.Complete r
  fields : ∀ r ∈ rs, r.cycle = head.cycle ∧ r.tailLsn = t
  live : ∀ r ∈ rs, ∀ op ∈ r.ops, op.isUnmount = false

theorem lsnOf_div {head : Head} (h : head.block < 2 ^ 32) : lsnOf head / 2 ^ 32 = head.cycle := by
  exact (mul_add_div_mod _ h).1

theorem lsnOf_mod {head : Head} (h : head.block < 2 ^ 32) : lsnOf head % 2 ^ 32 = head.block := by
  exact (mul_add_div_mod _ h).2

theorem ChainAt.nil {head : Head} (h : head.block < 2 ^ 32) :
    ChainAt ring head (lsnOf head) [] where
  cycle := lsnOf_div h
  chain := trivial
  stop := by rw [lsnOf_mod h]; rfl
  complete := by simp
  fields := by simp
  live := by simp

theorem Ring.Placed.writeRecord (h : ring.Placed)
    (hcycle : 0 < r.cycle ∧ r.cycle < 2 ^ 32) : (ring.writeRecord r).Placed := by
  intro b r' k hb
  unfold Ring.writeRecord at hb
  split at hb
  · next hin =>
    cases hb
    exact ⟨by omega, hcycle⟩
  · exact h b r' k hb

theorem Ring.complete_writeRecord (ring : Ring) (r : LogRecord) :
    (ring.writeRecord r).Complete r := by
  intro k hk
  rw [Ring.writeRecord, if_pos (by omega), Nat.add_sub_cancel_left]

theorem Ring.Complete.writeRecord {r r' : LogRecord} (h : ring.Complete r')
    (hbefore : r'.block + r'.blocks ≤ r.block) : (ring.writeRecord r).Complete r' := by
  intro k hk
  rw [Ring.writeRecord, if_neg (by omega)]
  exact h k hk

theorem Ring.header_writeRecord {r r' : LogRecord}
    (h : ring.writeRecord r b = some (r', 0)) :
    (b = r.block ∧ r' = r) ∨ ring b = some (r', 0) := by
  unfold Ring.writeRecord at h
  split at h
  · next hin =>
    simp only [Option.some.injEq, Prod.mk.injEq] at h
    exact .inl ⟨by omega, h.1.symm⟩
  · exact .inr h

section

variable {ring : Ring} {total t : ℕ} {head head' : Head} {r : LogRecord} {rs : List LogRecord}

structure Appended (head : Head) (r : LogRecord) (head' : Head) : Prop where
  block : r.block = head.block
  cycle : r.cycle = head.cycle
  fits : r.blocks ≤ head.freeBlocks
  next_block : head'.block = head.block + r.blocks
  next_cycle : head'.cycle = head.cycle
  next_free : head'.freeBlocks = head.freeBlocks - r.blocks

theorem Appended.lsn (ha : Appended head r head') : r.lsn = lsnOf head := by
  rw [LogRecord.lsn, lsnOf, ha.block, ha.cycle]

section

variable (hh : HeadOk total ring head)

include hh

theorem HeadOk.le_of_writeRecord (ha : Appended head r head') {b : ℕ} (hb : b < total)
    {r' : LogRecord} (hr' : ring.writeRecord r b = some (r', 0)) :
    r'.lsn ≤ lsnOf head := by
  by_cases hat : b = head.block
  · rw [Ring.writeRecord, if_pos (by have := ha.block; have := r.one_le_blocks; omega)] at hr'
    rw [← (Prod.mk.inj (Option.some.inj hr')).1, ha.lsn]
  · rcases Ring.header_writeRecord hr' with ⟨-, rfl⟩ | hold
    · exact ha.lsn.le
    · exact (hh.older b hb hat r' hold).le

theorem HeadOk.append (htotal : total < 2 ^ 32) (ha : Appended head r head') :
    HeadOk total (ring.writeRecord r) head' := by
  have hlt : lsnOf head < lsnOf head' := by
    rw [lsnOf, lsnOf, ha.next_cycle, ha.next_block]
    exact Nat.add_lt_add_left (Nat.lt_add_of_pos_right r.one_le_blocks) _
  have hstop := hh.stop
  have hfits := ha.fits
  have hblock := ha.next_block
  have hfree := ha.next_free
  refine ⟨by omega, by omega, ha.next_cycle ▸ hh.cycle_pos, ha.next_cycle ▸ hh.cycle_lt, ?_⟩
  intro b hb _ r' hr'
  exact (hh.le_of_writeRecord ha hb hr').trans_lt hlt

theorem HeadOk.wrap {ring' : Ring} (hblock : head'.block = 0)
    (hcycle : head'.cycle = head.cycle + 1) (hlt : head.cycle + 1 < 2 ^ 32)
    (hfree : head'.freeBlocks = total)
    (hle : ∀ b < total, ∀ r, ring' b = some (r, 0) → r.lsn ≤ lsnOf head) :
    HeadOk total ring' head' := by
  have hnext : lsnOf head < lsnOf head' := by
    rw [lsnOf, lsnOf, hcycle, hblock, Nat.add_mul, Nat.one_mul, Nat.add_zero]
    exact Nat.add_lt_add_left hh.block_lt _
  refine ⟨by omega, by omega, by omega, by omega, ?_⟩
  intro b hb _ r hr
  exact (hle b hb r hr).trans_lt hnext

theorem HeadOk.scan (ha : Appended head r head') :
    scanWholeRing (ring.writeRecord r) total = some (r.block, r) := by
  have hstop := hh.stop
  have hfits := ha.fits
  have hblock := ha.block
  have hpos := r.one_le_blocks
  apply scanWholeRing_eq (by omega) (ring_header (Ring.complete_writeRecord ring r))
  intro b hb hne r' hr'
  rcases Ring.header_writeRecord hr' with ⟨heq, -⟩ | hold
  · exact absurd heq hne
  · rw [ha.lsn]
    exact hh.older b hb (hblock ▸ hne) r' hold

end

theorem ChainAt.append (hc : ChainAt ring head t rs) (ha : Appended head r head')
    (htail : r.tailLsn = t) (hops : ∀ op ∈ r.ops, op.isUnmount = false) :
    ChainAt (ring.writeRecord r) head' t (rs ++ [r]) := by
  have hstop := hc.stop
  refine ⟨hc.cycle.trans ha.next_cycle.symm, ?_, ?_, ?_, ?_, ?_⟩
  · exact chain_append.mpr ⟨hc.chain, by rw [ha.block, ← hstop], trivial⟩
  · rw [span_append, ha.next_block, ← hstop, span, span, List.map_singleton, List.sum_singleton,
      Nat.add_assoc]
  · intro r' hr'
    rcases List.mem_append.mp hr' with hr' | hr'
    · have hbefore := hc.chain.end_le r' hr'
      rw [hstop, ← ha.block] at hbefore
      exact (hc.complete r' hr').writeRecord hbefore
    · rw [List.mem_singleton.mp hr']
      exact Ring.complete_writeRecord ring r
  · intro r' hr'
    rw [ha.next_cycle]
    rcases List.mem_append.mp hr' with hr' | hr'
    · exact hc.fields r' hr'
    · rw [List.mem_singleton.mp hr']
      exact ⟨ha.cycle, htail⟩
  · intro r' hr'
    rcases List.mem_append.mp hr' with hr' | hr'
    · exact hc.live r' hr'
    · rw [List.mem_singleton.mp hr']
      exact hops

theorem ChainAt.tail_le (h : ChainAt ring head t rs) : ∀ r ∈ rs, t ≤ r.lsn := by
  intro r hr
  have hle := h.chain.le_block r hr
  rw [LogRecord.lsn, (h.fields r hr).1, ← h.cycle]
  calc t = t / 2 ^ 32 * 2 ^ 32 + t % 2 ^ 32 := (Nat.div_add_mod' t (2 ^ 32)).symm
    _ ≤ t / 2 ^ 32 * 2 ^ 32 + r.block := Nat.add_le_add_left hle _

/-- When the newest record ends a chain and names its beginning as the tail, a replay reads the
records of the chain and nothing else. -/
theorem outstanding_of_chain (hc : ChainAt ring head t (rs ++ [r])) (hscan :
    scanWholeRing ring total = some (r.block, r)) (hpos : 0 < head.cycle)
    (hend : head.block ≤ total) :
    outstanding ring total = .ok ((rs ++ [r]).foldl (fun st r => readOps r st) (∅, [])).2 := by
  have hmem : r ∈ rs ++ [r] := List.mem_append_right _ (List.mem_singleton_self r)
  have hstop := hc.stop
  have htail : r.tailLsn = t := (hc.fields r hmem).2
  have ht : t ≠ 0 := by
    rintro rfl
    have := hc.cycle
    omega
  have hlen := length_le_span (rs ++ [r])
  rw [List.length_append, List.length_singleton] at hlen
  have hlsn : ∀ r' ∈ rs, r'.lsn ≠ r.lsn := by
    intro r' hr'
    obtain ⟨hrs, hlast, -⟩ := chain_append.mp hc.chain
    have hle := hrs.end_le r' hr'
    have hpos' := r'.one_le_blocks
    rw [LogRecord.lsn, LogRecord.lsn, (hc.fields r' (List.mem_append_left _ hr')).1,
      (hc.fields r hmem).1]
    omega
  rw [outstanding, hscan]
  simp only [inspect_needsReplay hscan (hc.live r hmem), if_true]
  rw [walk, htail, if_neg ht]
  rw [if_neg (by omega)]
  exact walkFrom_chain hc.chain (by omega) hc.complete hlsn (by omega)

end

/-! ## Where the head is found -/

def totalBlocks (sb : Superblock) : ℕ :=
  ringBlocks (sb.logblocks * sb.blocksize)

theorem totalBlocks_lt (sb : Superblock) : totalBlocks sb < 2 ^ 32 :=
  Nat.mod_lt _ (by decide)

theorem head_spec {sb : Superblock} {h : Head} (hring : ring.Placed)
    (hhead : head sb ring = .ok h) : HeadOk (totalBlocks sb) ring h := by
  have htotal := totalBlocks_lt sb
  simp only [head, bind_eq_ok] at hhead
  obtain ⟨logBytes, hext, hhead⟩ := hhead
  have hbytes : ringBlocks logBytes = totalBlocks sb := by
    simp only [extent, bind_eq_ok, ensure_eq_ok, pure, Except.pure, Except.ok.injEq] at hext
    obtain ⟨-, -, -, -, rfl⟩ := hext
    rfl
  rw [hbytes] at hhead
  split at hhead
  · next hscan =>
    simp only [bind_eq_ok, pure, Except.pure, Except.ok.injEq] at hhead
    obtain ⟨iclogSize, -, rfl⟩ := hhead
    refine ⟨Nat.zero_add _, Nat.two_pow_pos 32, Nat.one_pos, Nat.one_lt_two_pow (by decide), ?_⟩
    intro b hb _ r hr
    exact absurd hr (scanWholeRing_none hscan b hb r)
  · next bb newest hscan =>
    obtain ⟨hbb, hnewest, hmax⟩ := scanWholeRing_some hscan
    obtain ⟨hblock, hpos, hlt⟩ := hring bb newest 0 hnewest
    have hcycle : newest.lsn / 2 ^ 32 % 2 ^ 32 = newest.cycle := by
      rw [LogRecord.lsn, (mul_add_div_mod _ (by omega)).1, Nat.mod_eq_of_lt hlt]
    rw [hcycle] at hhead
    simp only [bind_eq_ok, ensure_eq_ok] at hhead
    obtain ⟨-, -, -, hnext, hhead⟩ := hhead
    split at hhead
    · simp only [bind_eq_ok, ensure_eq_ok, pure, Except.pure, Except.ok.injEq] at hhead
      obtain ⟨-, hnew, rfl⟩ := hhead
      refine ⟨Nat.zero_add _, Nat.two_pow_pos 32, Nat.succ_pos _, hnew, ?_⟩
      intro b hb _ r hr
      refine (hmax b hb r hr).trans_lt ?_
      rw [LogRecord.lsn, lsnOf, Nat.add_mul, Nat.one_mul, Nat.add_zero]
      exact Nat.add_lt_add_left (by omega) _
    · next hne =>
      simp only [pure, Except.pure, Except.ok.injEq] at hhead
      subst hhead
      refine ⟨Nat.add_sub_cancel' hnext, by simp only; omega, hpos, hlt, ?_⟩
      intro b hb _ r hr
      refine (hmax b hb r hr).trans_lt ?_
      have hblocks := newest.one_le_blocks
      exact Nat.add_lt_add_left (by simp only; omega) _

end FsXfs.Log
