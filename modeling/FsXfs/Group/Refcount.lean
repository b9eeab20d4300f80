import FsXfs.Group.FreeSpace
import Mathlib.Data.List.Sort

/-!
# Reference counts

`refcount.rs`: the records of the runs more than one file holds, the checks a tree of them passes
when it is read, and `release`, which gives up one reference to a run and says which of its blocks
nobody else holds.
-/

namespace FsXfs.Group

set_option autoImplicit false

structure Refcount where
  startblock : ℕ
  blockcount : ℕ
  refcount : ℕ
  cow : Bool
  deriving DecidableEq, Repr

namespace Refcount

def end_ (r : Refcount) : ℕ :=
  r.startblock + r.blockcount

def overlaps (r : Refcount) (start stop : ℕ) : Bool :=
  decide (r.startblock < stop) && decide (start < r.end_)

end Refcount

/-! ## The checks -/

def outOfOrder (previous : Option Refcount) (r : Refcount) : Option String :=
  if r.blockcount = 0 then some "is empty"
  else if r.cow = false ∧ r.refcount < 2 then
    some "is shared by fewer than two owners, and a record should only exist while there is more than one"
  else if r.cow = true ∧ r.refcount ≠ 1 then some "is a staging record with other than one owner"
  else previous.bind fun p =>
    if p.cow = true ∧ r.cow = false then some "is shared and follows a staging record"
    else if p.cow = r.cow ∧ r.startblock < p.end_ then some "starts before the record before it ends"
    else none

def staging (r : Refcount) : String :=
  if r.cow then ", staging" else ""

def checkOrderFrom : ℕ → Option Refcount → List Refcount → Except Error Unit
  | _, _, [] => .ok ()
  | i, previous, r :: rest =>
    match outOfOrder previous r with
    | some why => .error (.badSuperblock s!"reference-count record {i} ({r.blockcount} blocks at {r.startblock}, {r.refcount} owners{staging r}) {why}")
    | none => checkOrderFrom (i + 1) (some r) rest

def checkOrder (records : List Refcount) : Except Error Unit :=
  checkOrderFrom 0 none records

def outsideGroup (headers length : ℕ) (r : Refcount) : Option String :=
  if r.startblock ≤ headers then some "starts on the group's headers"
  else if length < r.end_ then some "runs past the end of the group"
  else none

def checkCountsFrom (agno length headers : ℕ) : ℕ → List Refcount → Except Error Unit
  | _, [] => .ok ()
  | i, r :: rest =>
    match outsideGroup headers length r with
    | some why => .error (.badSuperblock s!"AG {agno}: reference-count record {i} ({r.blockcount} blocks at {r.startblock}) {why}, in a group of {length} blocks")
    | none => checkCountsFrom agno length headers (i + 1) rest

def checkCounts (agno length headers : ℕ) (records : List Refcount) : Except Error Unit := do
  checkCountsFrom agno length headers 0 records
  checkOrder records

/-! ## Giving up a reference -/

def unshared (stop : ℕ) : ℕ → List Refcount → List FreeExtent
  | at_, [] => piece at_ stop
  | at_, r :: rest => piece at_ r.startblock ++ unshared stop (max at_ r.end_) rest

def countPiece (start stop refcount : ℕ) : List Refcount :=
  if start < stop then [⟨start, stop - start, refcount, false⟩] else []

def countPieces (start stop : ℕ) (r : Refcount) : List Refcount :=
  let hitStart := max r.startblock start
  let hitEnd := min r.end_ stop
  countPiece r.startblock hitStart r.refcount ++
    ((if 2 < r.refcount then [⟨hitStart, hitEnd - hitStart, r.refcount - 1, false⟩] else []) ++
      countPiece hitEnd r.end_ r.refcount)

def keyBefore (a b : Refcount) : Bool :=
  if a.cow = b.cow then decide (a.startblock ≤ b.startblock) else b.cow

-- a count past a `u32` wraps
def joinCounts (a b : Refcount) : Refcount :=
  { a with blockcount := (a.blockcount + b.blockcount) % 2 ^ 32 }

def joinFrom : Refcount → List Refcount → List Refcount
  | a, [] => [a]
  | a, b :: rest =>
    if a.end_ = b.startblock ∧ a.refcount = b.refcount ∧ a.cow = b.cow then
      joinFrom (joinCounts a b) rest
    else a :: joinFrom b rest

def mergeAdjacent (records : List Refcount) : List Refcount :=
  match records.insertionSort fun a b => keyBefore a b with
  | [] => []
  | a :: rest => joinFrom a rest

def stagingClash (start stop : ℕ) (r : Refcount) : Error :=
  .unsupportedFeature s!"group blocks {start}..{stop} overlap a copy-on-write staging record at {r.startblock}..{r.end_}; this driver does not do copy-on-write and will not free underneath one"

def tooFewOwners (r : Refcount) : Error :=
  .unsupportedFeature s!"the reference-count record for group blocks {r.startblock}..{r.end_} says {r.refcount} owners, and a record should only exist while there is more than one"

def release (records : List Refcount) (start count : ℕ) :
    Except Error (List FreeExtent × List Refcount) := do
  checkOrder records
  let stop := start + count
  (records.find? fun r => r.cow && r.overlaps start stop).elim (pure ()) fun r =>
    .error (stagingClash start stop r)
  let touches := fun r : Refcount => !r.cow && r.overlaps start stop
  let touched := (records.filter touches).insertionSort fun a b => a.startblock ≤ b.startblock
  (touched.reverse.find? fun r => decide (r.refcount < 2)).elim (pure ()) fun r =>
    .error (tooFewOwners r)
  pure (unshared stop start touched,
    mergeAdjacent (records.flatMap fun r => if touches r then countPieces start stop r else [r]))

/-! ## What the checks accept -/

def Refcount.Before (a b : Refcount) : Prop :=
  (a.cow = false ∧ b.cow = true) ∨ (a.cow = b.cow ∧ a.end_ ≤ b.startblock)

structure Refcount.Sound (lo hi : ℕ) (r : Refcount) : Prop where
  pos : 0 < r.blockcount
  owners : (r.cow = false ∧ 2 ≤ r.refcount) ∨ (r.cow = true ∧ r.refcount = 1)
  lo_le : lo ≤ r.startblock
  le_hi : r.end_ ≤ hi

structure Counted (lo hi : ℕ) (records : List Refcount) : Prop where
  apart : records.Pairwise Refcount.Before
  sound : ∀ r ∈ records, r.Sound lo hi

section

open Refcount

variable {lo hi : ℕ} {records : List Refcount} {r a b c : Refcount}

theorem before_trans (hb : 0 < b.blockcount) (hab : a.Before b) (hbc : b.Before c) :
    a.Before c := by
  have hend : b.end_ = b.startblock + b.blockcount := rfl
  rcases hab with ⟨ha, hb'⟩ | ⟨ha, hle⟩
  · rcases hbc with ⟨hb'', -⟩ | ⟨hb'', -⟩
    · exact absurd (hb'.symm.trans hb'') (by decide)
    · exact .inl ⟨ha, hb'' ▸ hb'⟩
  · rcases hbc with ⟨hb'', hc⟩ | ⟨hb'', hle'⟩
    · exact .inl ⟨ha.trans hb'', hc⟩
    · exact .inr ⟨ha.trans hb'', by omega⟩

theorem outOfOrder_eq_none {previous : Option Refcount} :
    outOfOrder previous r = none ↔ 0 < r.blockcount ∧
      ((r.cow = false ∧ 2 ≤ r.refcount) ∨ (r.cow = true ∧ r.refcount = 1)) ∧
      ∀ p ∈ previous, p.Before r := by
  unfold outOfOrder
  by_cases hpos : r.blockcount = 0
  · simp [hpos]
  rw [if_neg hpos]
  by_cases hfew : r.cow = false ∧ r.refcount < 2
  · rw [if_pos hfew]
    refine iff_of_false (by simp) fun h => ?_
    rcases h.2.1 with ⟨-, hle⟩ | ⟨hcow, -⟩
    · exact absurd hfew.2 (by omega)
    · exact absurd (hfew.1.symm.trans hcow) (by decide)
  rw [if_neg hfew]
  by_cases hmany : r.cow = true ∧ r.refcount ≠ 1
  · simp [hmany.1, hmany.2]
  rw [if_neg hmany]
  have howners : (r.cow = false ∧ 2 ≤ r.refcount) ∨ (r.cow = true ∧ r.refcount = 1) := by
    cases hcow : r.cow with
    | false => exact .inl ⟨rfl, by by_contra hlt; exact hfew ⟨hcow, by omega⟩⟩
    | true => exact .inr ⟨rfl, by by_contra hne; exact hmany ⟨hcow, hne⟩⟩
  simp only [Nat.pos_of_ne_zero hpos, howners, true_and]
  cases previous with
  | none => simp
  | some p =>
    simp only [Option.bind_some, Option.mem_some_iff, forall_eq', Before]
    cases hp : p.cow <;> cases hr : r.cow <;> simp

theorem checkOrderFrom_eq_ok {i : ℕ} {previous : Option Refcount} :
    checkOrderFrom i previous records = .ok () ↔ records.Pairwise Before ∧
      (∀ r ∈ records, 0 < r.blockcount ∧
        ((r.cow = false ∧ 2 ≤ r.refcount) ∨ (r.cow = true ∧ r.refcount = 1))) ∧
      ∀ p ∈ previous, ∀ r ∈ records, p.Before r := by
  induction records generalizing i previous with
  | nil => simp [checkOrderFrom]
  | cons r rest ih =>
    unfold checkOrderFrom
    cases hwhy : outOfOrder previous r with
    | some why =>
      simp only [reduceCtorEq, false_iff, not_and]
      intro _ hsound hprev
      have hnone := outOfOrder_eq_none.mpr ⟨(hsound r List.mem_cons_self).1,
        (hsound r List.mem_cons_self).2, fun p hp => hprev p hp r List.mem_cons_self⟩
      cases hwhy.symm.trans hnone
    | none =>
      obtain ⟨hpos, howners, hprev⟩ := outOfOrder_eq_none.mp hwhy
      rw [ih, List.pairwise_cons]
      simp only [Option.mem_some_iff, forall_eq', List.mem_cons, forall_eq_or_imp]
      constructor
      · rintro ⟨hpair, hsound, hrest⟩
        exact ⟨⟨hrest, hpair⟩, ⟨⟨hpos, howners⟩, hsound⟩,
          fun p hp => ⟨hprev p hp, fun q hq => before_trans hpos (hprev p hp) (hrest q hq)⟩⟩
      · rintro ⟨⟨hrest, hpair⟩, ⟨-, hsound⟩, -⟩
        exact ⟨hpair, hsound, hrest⟩

theorem checkCountsFrom_eq_ok {agno length headers i : ℕ} :
    checkCountsFrom agno length headers i records = .ok () ↔
      ∀ r ∈ records, headers < r.startblock ∧ r.end_ ≤ length := by
  induction records generalizing i with
  | nil => simp [checkCountsFrom]
  | cons r rest ih =>
    unfold checkCountsFrom outsideGroup
    rw [List.forall_mem_cons]
    by_cases hlo : r.startblock ≤ headers
    · rw [if_pos hlo]
      exact iff_of_false (by simp) fun h => absurd h.1.1 (by omega)
    by_cases hhi : length < r.end_
    · rw [if_neg hlo, if_pos hhi]
      exact iff_of_false (by simp) fun h => absurd h.1.2 (by omega)
    · rw [if_neg hlo, if_neg hhi, and_iff_right ⟨by omega, by omega⟩]
      exact ih

theorem checkCounts_eq_ok {agno length headers : ℕ} :
    checkCounts agno length headers records = .ok () ↔ Counted (headers + 1) length records := by
  rw [checkCounts, bind_eq_ok, Unique.exists_iff]
  change checkCountsFrom agno length headers 0 records = .ok () ∧ checkOrderFrom 0 none records = _ ↔ _
  simp only [checkCountsFrom_eq_ok, checkOrderFrom_eq_ok, Option.not_mem_none, false_implies,
    implies_true, and_true]
  constructor
  · rintro ⟨hin, hpair, hsound⟩
    exact ⟨hpair, fun r hr => ⟨(hsound r hr).1, (hsound r hr).2, (hin r hr).1, (hin r hr).2⟩⟩
  · rintro ⟨hpair, hsound⟩
    exact ⟨fun r hr => ⟨(hsound r hr).lo_le, (hsound r hr).le_hi⟩, hpair,
      fun r hr => ⟨(hsound r hr).pos, (hsound r hr).owners⟩⟩

/-! ## A reference given up -/

structure Refcount.Within (r p : Refcount) : Prop where
  cow : p.cow = r.cow
  lo : r.startblock ≤ p.startblock
  hi : p.end_ ≤ r.end_

theorem before_within {p q : Refcount} (h : a.Before b) (hp : a.Within p) (hq : b.Within q) :
    p.Before q := by
  have hphi := hp.hi
  have hqlo := hq.lo
  rcases h with ⟨ha, hb⟩ | ⟨ha, hle⟩
  · exact .inl ⟨hp.cow.trans ha, hq.cow.trans hb⟩
  · exact .inr ⟨hp.cow.trans (ha.trans hq.cow.symm), by omega⟩

theorem mem_countPiece {start stop refcount : ℕ} {p : Refcount}
    (h : p ∈ countPiece start stop refcount) :
    p.startblock = start ∧ p.end_ = stop ∧ 0 < p.blockcount ∧ p.refcount = refcount ∧
      p.cow = false := by
  unfold countPiece at h
  split at h
  · rw [List.mem_singleton.mp h]
    refine ⟨rfl, ?_, ?_, rfl, rfl⟩
    · simp only [end_]
      omega
    · dsimp only
      omega
  · cases h

variable {start stop : ℕ}

def hitPiece (start stop : ℕ) (r : Refcount) : List Refcount :=
  if 2 < r.refcount then
    [⟨max r.startblock start, min r.end_ stop - max r.startblock start, r.refcount - 1, false⟩]
  else []

theorem countPieces_eq (start stop : ℕ) (r : Refcount) :
    countPieces start stop r = countPiece r.startblock (max r.startblock start) r.refcount ++
      (hitPiece start stop r ++ countPiece (min r.end_ stop) r.end_ r.refcount) := rfl

theorem mem_hitPiece {p : Refcount} (hpos : 0 < r.blockcount) (hsize : start < stop)
    (hover : r.overlaps start stop = true) (h : p ∈ hitPiece start stop r) :
    2 < r.refcount ∧
      p ∈ countPiece (max r.startblock start) (min r.end_ stop) (r.refcount - 1) := by
  simp only [overlaps, Bool.and_eq_true, decide_eq_true_eq] at hover
  have hend : r.end_ = r.startblock + r.blockcount := rfl
  unfold hitPiece at h
  split at h
  next hmany =>
    rw [countPiece, if_pos (by omega)]
    exact ⟨hmany, h⟩
  next => cases h

theorem pairwise_ite {p : Prop} [Decidable p] :
    (if p then [r] else []).Pairwise Before := by
  split
  · exact List.pairwise_singleton _ _
  · exact .nil

theorem countPiece_before {start' stop' n n' : ℕ} (hle : stop ≤ start')
    (ha : a ∈ countPiece start stop n) (hb : b ∈ countPiece start' stop' n') : a.Before b := by
  obtain ⟨-, rfl, -, -, hacow⟩ := mem_countPiece ha
  obtain ⟨rfl, -, -, -, hbcow⟩ := mem_countPiece hb
  exact .inr ⟨hacow.trans hbcow.symm, hle⟩

theorem countPieces_spec (hsound : r.Sound lo hi) (hcow : r.cow = false) (hsize : start < stop)
    (hover : r.overlaps start stop = true) :
    (countPieces start stop r).Pairwise Before ∧
      ∀ p ∈ countPieces start stop r, r.Within p ∧ p.Sound lo hi := by
  have hover' := hover
  simp only [overlaps, Bool.and_eq_true, decide_eq_true_eq] at hover'
  have hend : r.end_ = r.startblock + r.blockcount := rfl
  have hpos := hsound.pos
  have howners : 2 ≤ r.refcount := by
    rcases hsound.owners with ⟨-, h⟩ | ⟨h, -⟩
    · exact h
    · exact absurd (hcow.symm.trans h) (by decide)
  constructor
  · refine List.pairwise_append.mpr ⟨pairwise_ite,
      List.pairwise_append.mpr ⟨pairwise_ite, pairwise_ite, ?_⟩, ?_⟩
    · intro x hx y hy
      exact countPiece_before (le_refl _) (mem_hitPiece hpos hsize hover hx).2 hy
    · intro x hx y hy
      rcases List.mem_append.mp hy with hy | hy
      · exact countPiece_before (le_refl _) hx (mem_hitPiece hpos hsize hover hy).2
      · exact countPiece_before (by omega) hx hy
  · intro p hp
    have hpiece : ∀ start stop refcount, r.startblock ≤ start → stop ≤ r.end_ → 2 ≤ refcount →
        p ∈ countPiece start stop refcount → r.Within p ∧ p.Sound lo hi := by
      intro start stop refcount hlo hhi hcount hp
      obtain ⟨rfl, rfl, hppos, rfl, hpcow⟩ := mem_countPiece hp
      exact ⟨⟨hpcow.trans hcow.symm, hlo, hhi⟩,
        ⟨hppos, .inl ⟨hpcow, hcount⟩, hsound.lo_le.trans hlo, hhi.trans hsound.le_hi⟩⟩
    rcases List.mem_append.mp hp with hp | hp
    · exact hpiece _ _ _ (le_refl _) (by omega) howners hp
    rcases List.mem_append.mp hp with hp | hp
    · obtain ⟨hmany, hp⟩ := mem_hitPiece hpos hsize hover hp
      exact hpiece _ _ _ (le_max_left _ _) (min_le_left _ _) (by omega) hp
    · exact hpiece _ _ _ (by omega) (le_refl _) howners hp

theorem joinCounts_spec (hhi : hi < 2 ^ 32) (ha : a.Sound lo hi) (hb : b.Sound lo hi)
    (hmeet : a.end_ = b.startblock) :
    (joinCounts a b).Sound lo hi ∧ (joinCounts a b).end_ = b.end_ := by
  have haend : a.end_ = a.startblock + a.blockcount := rfl
  have hbend : b.end_ = b.startblock + b.blockcount := rfl
  have hbhi := hb.le_hi
  have hbpos := hb.pos
  have hcount : (joinCounts a b).blockcount = a.blockcount + b.blockcount :=
    Nat.mod_eq_of_lt (by omega)
  have hend : (joinCounts a b).end_ = b.end_ := by
    change a.startblock + _ = _
    omega
  exact ⟨⟨by omega, ha.owners, ha.lo_le, by omega⟩, hend⟩

theorem counted_joinCounts (hhi : hi < 2 ^ 32) {done rest : List Refcount}
    (hmeet : a.end_ = b.startblock) (hcow : a.cow = b.cow)
    (h : Counted lo hi (done ++ a :: b :: rest)) : Counted lo hi (done ++ joinCounts a b :: rest) := by
  obtain ⟨hdone, htail, hcross⟩ := List.pairwise_append.mp h.apart
  obtain ⟨hb, hrest⟩ := List.pairwise_cons.mp (List.pairwise_cons.mp htail).2
  have hsounds := h.sound
  simp only [List.forall_mem_append, List.forall_mem_cons] at hsounds hcross
  obtain ⟨hbefore, ha, hb', hafter⟩ := hsounds
  obtain ⟨hsound, hend⟩ := joinCounts_spec hhi ha hb' hmeet
  refine ⟨List.pairwise_append.mpr ⟨hdone, List.pairwise_cons.mpr ⟨fun c hc => ?_, hrest⟩,
    fun p hp => List.forall_mem_cons.mpr ⟨(hcross p hp).1, (hcross p hp).2.2⟩⟩,
    List.forall_mem_append.mpr ⟨hbefore, List.forall_mem_cons.mpr ⟨hsound, hafter⟩⟩⟩
  rcases hb c hc with ⟨hbcow, hccow⟩ | ⟨hbcow, hle⟩
  · exact .inl ⟨hcow.trans hbcow, hccow⟩
  · exact .inr ⟨hcow.trans hbcow, hend ▸ hle⟩

theorem counted_joinFrom (hhi : hi < 2 ^ 32) {rest : List Refcount} (done : List Refcount)
    (h : Counted lo hi (done ++ a :: rest)) : Counted lo hi (done ++ joinFrom a rest) := by
  induction rest generalizing a done with
  | nil => exact h
  | cons b rest ih =>
    unfold joinFrom
    split
    next hjoin => exact ih done (counted_joinCounts hhi hjoin.1 hjoin.2.2 h)
    next =>
      rw [List.append_cons] at h ⊢
      exact ih _ h

theorem counted_mergeAdjacent (hhi : hi < 2 ^ 32) (h : Counted lo hi records) :
    Counted lo hi (mergeAdjacent records) := by
  have hsorted : records.Pairwise fun a b => keyBefore a b = true := by
    refine h.apart.imp_of_mem fun {a b} ha _ hab => ?_
    have hend : a.end_ = a.startblock + a.blockcount := rfl
    unfold keyBefore
    rcases hab with ⟨ha, hb⟩ | ⟨hcow, hle⟩
    · rw [ha, hb]
      rfl
    · rw [if_pos hcow]
      exact decide_eq_true (by omega)
  rw [mergeAdjacent, hsorted.insertionSort_eq]
  cases records with
  | nil => exact h
  | cons a rest => exact counted_joinFrom hhi [] h

theorem counted_release {records' : List Refcount} {freed : List FreeExtent} {count : ℕ}
    (hhi : hi < 2 ^ 32) (hcount : 0 < count) (h : Counted lo hi records)
    (hrelease : release records start count = .ok (freed, records')) :
    Counted lo hi records' := by
  obtain ⟨-, -, hrelease⟩ := bind_eq_ok.mp hrelease
  obtain ⟨-, -, hrelease⟩ := bind_eq_ok.mp hrelease
  obtain ⟨-, -, hrelease⟩ := bind_eq_ok.mp hrelease
  cases hrelease
  set cut := fun r : Refcount =>
    if (!r.cow && r.overlaps start (start + count)) = true then countPieces start (start + count) r
    else [r]
  have hcut : ∀ r ∈ records, (cut r).Pairwise Before ∧ ∀ p ∈ cut r, r.Within p ∧ p.Sound lo hi := by
    intro r hr
    have hsound := h.sound r hr
    by_cases htouch : (!r.cow && r.overlaps start (start + count)) = true
    · simp only [cut, if_pos htouch]
      obtain ⟨hcow, hover⟩ := (Bool.and_eq_true _ _).mp htouch
      exact countPieces_spec hsound (by simpa using hcow) (by omega) hover
    · simp only [cut, if_neg htouch]
      refine ⟨List.pairwise_singleton _ _, fun p hp => ?_⟩
      rw [List.mem_singleton.mp hp]
      exact ⟨⟨rfl, le_refl _, le_refl _⟩, hsound⟩
  refine counted_mergeAdjacent hhi ⟨List.pairwise_flatMap.mpr ⟨fun r hr => (hcut r hr).1, ?_⟩, ?_⟩
  · refine h.apart.imp_of_mem fun {a b} ha hb hab x hx y hy => ?_
    exact before_within hab ((hcut a ha).2 x hx).1 ((hcut b hb).2 y hy).1
  · intro p hp
    obtain ⟨r, hr, hp⟩ := List.mem_flatMap.mp hp
    exact ((hcut r hr).2 p hp).2

/-- Whatever runs are given up, the check accepts what is left. -/
theorem checkCounts_releases {agno length headers : ℕ} {runs : List (ℕ × ℕ)}
    {records' : List Refcount} (hlength : length < 2 ^ 32) (hruns : ∀ run ∈ runs, 0 < run.2)
    (h : checkCounts agno length headers records = .ok ())
    (hall : runs.foldlM (fun s run => do return (← release s run.1 run.2).2) records = .ok records') :
    checkCounts agno length headers records' = .ok () := by
  rw [checkCounts_eq_ok] at h ⊢
  refine foldlM_invariant (fun s s' run hrun hs hstep => ?_) h hall
  obtain ⟨out, hrelease, hout⟩ := bind_eq_ok.mp hstep
  cases hout
  exact counted_release hlength (hruns run hrun) hs hrelease

theorem checkCounts_two_releases :
    checkCounts 0 24 4 [⟨8, 2, 2, false⟩, ⟨10, 2, 3, false⟩, ⟨12, 2, 2, false⟩] = .ok () :=
  @checkCounts_releases [⟨8, 6, 3, false⟩] 0 24 4 [(8, 2), (12, 2)] _ (by decide) (by decide) rfl rfl

/-! ## How many records there can be -/

structure Bounded (records : List Refcount) : Prop where
  end_lt : ∀ r ∈ records, r.end_ < 2 ^ 32
  length_le : records.length ≤ 6 * 2 ^ 32

theorem length_le_of_increasing {values : List ℕ} {k n : ℕ} (hk : k ≤ n)
    (hsorted : values.Pairwise (· < ·)) (hin : ∀ v ∈ values, k < v ∧ v ≤ n) :
    values.length + k ≤ n := by
  induction values generalizing k with
  | nil => simpa using hk
  | cons v rest ih =>
    obtain ⟨hfirst, hrest⟩ := List.pairwise_cons.mp hsorted
    obtain ⟨hlo, hhi⟩ := hin v List.mem_cons_self
    have htail := ih hhi hrest fun x hx => ⟨hfirst x hx, (hin x (List.mem_cons_of_mem _ hx)).2⟩
    rw [List.length_cons]
    omega

theorem counted_length (h : Counted lo hi records) : records.length ≤ 2 * hi := by
  set place := fun r : Refcount => (if r.cow then hi else 0) + r.end_
  have hsorted : (records.map place).Pairwise (· < ·) := by
    refine List.pairwise_map.mpr (h.apart.imp_of_mem fun {a b} ha hb hab => ?_)
    have hahi := (h.sound a ha).le_hi
    have hbpos := (h.sound b hb).pos
    have hbend : b.end_ = b.startblock + b.blockcount := rfl
    rcases hab with ⟨hacow, hbcow⟩ | ⟨hcow, hle⟩
    · simp only [place, hacow, hbcow, Bool.false_eq_true, if_false, if_true]
      omega
    · simp only [place, hcow]
      omega
  have hin : ∀ v ∈ records.map place, 0 < v ∧ v ≤ 2 * hi := by
    intro v hv
    obtain ⟨r, hr, rfl⟩ := List.mem_map.mp hv
    have hrhi := (h.sound r hr).le_hi
    have hrpos := (h.sound r hr).pos
    have hrend : r.end_ = r.startblock + r.blockcount := rfl
    simp only [place]
    split
    · omega
    · omega
  have hlen := length_le_of_increasing (Nat.zero_le _) hsorted hin
  rwa [List.length_map, Nat.add_zero] at hlen

theorem countPieces_bound (hover : r.overlaps start stop = true) :
    (countPieces start stop r).length ≤ 3 ∧ ∀ p ∈ countPieces start stop r, p.end_ ≤ r.end_ := by
  simp only [overlaps, Bool.and_eq_true, decide_eq_true_eq] at hover
  have hpiece : ∀ start stop refcount, (countPiece start stop refcount).length ≤ 1 := by
    intro start stop refcount
    unfold countPiece
    split
    · exact le_refl 1
    · exact Nat.zero_le 1
  have hhit : (hitPiece start stop r).length ≤ 1 := by
    unfold hitPiece
    split
    · exact le_refl 1
    · exact Nat.zero_le 1
  rw [countPieces_eq]
  constructor
  · have hfirst := hpiece r.startblock (max r.startblock start) r.refcount
    have hlast := hpiece (min r.end_ stop) r.end_ r.refcount
    rw [List.length_append, List.length_append]
    omega
  · intro p hp
    have hend : r.end_ = r.startblock + r.blockcount := rfl
    rcases List.mem_append.mp hp with hp | hp
    · obtain ⟨-, hpend, -⟩ := mem_countPiece hp
      omega
    rcases List.mem_append.mp hp with hp | hp
    · unfold hitPiece at hp
      split at hp
      · rw [List.mem_singleton.mp hp]
        change max r.startblock start + (min r.end_ stop - max r.startblock start) ≤ _
        omega
      · cases hp
    · obtain ⟨-, hpend, -⟩ := mem_countPiece hp
      omega

theorem joinFrom_bound {rest : List Refcount} (ha : a.end_ < 2 ^ 32)
    (hrest : ∀ r ∈ rest, r.end_ < 2 ^ 32) :
    (joinFrom a rest).length ≤ rest.length + 1 ∧ ∀ r ∈ joinFrom a rest, r.end_ < 2 ^ 32 := by
  induction rest generalizing a with
  | nil =>
    refine ⟨le_refl _, fun r hr => ?_⟩
    rw [List.mem_singleton.mp hr]
    exact ha
  | cons b rest ih =>
    have hb := hrest b List.mem_cons_self
    have htail : ∀ r ∈ rest, r.end_ < 2 ^ 32 := fun r hr => hrest r (List.mem_cons_of_mem _ hr)
    unfold joinFrom
    split
    next hjoin =>
      have hend : (joinCounts a b).end_ < 2 ^ 32 := by
        have hmeet := hjoin.1
        change a.startblock + (a.blockcount + b.blockcount) % 2 ^ 32 < _
        simp only [end_] at hmeet hb
        omega
      obtain ⟨hlen, hin⟩ := ih hend htail
      exact ⟨by rw [List.length_cons]; omega, hin⟩
    next hjoin =>
      obtain ⟨hlen, hin⟩ := ih hb htail
      refine ⟨by rw [List.length_cons, List.length_cons]; omega, fun r hr => ?_⟩
      rcases List.mem_cons.mp hr with rfl | hr
      · exact ha
      · exact hin r hr

theorem mergeAdjacent_bound (h : ∀ r ∈ records, r.end_ < 2 ^ 32) :
    (mergeAdjacent records).length ≤ records.length ∧ ∀ r ∈ mergeAdjacent records, r.end_ < 2 ^ 32 := by
  have hperm := List.perm_insertionSort (fun a b => keyBefore a b = true) records
  unfold mergeAdjacent
  cases hsort : records.insertionSort fun a b => keyBefore a b = true with
  | nil => simp
  | cons a rest =>
    rw [hsort] at hperm
    have hin : ∀ r ∈ a :: rest, r.end_ < 2 ^ 32 := fun r hr => h r (hperm.mem_iff.mp hr)
    obtain ⟨hlen, hjoined⟩ := joinFrom_bound (hin a List.mem_cons_self)
      fun r hr => hin r (List.mem_cons_of_mem _ hr)
    have hsize := hperm.length_eq
    rw [List.length_cons] at hsize
    exact ⟨by dsimp only; omega, hjoined⟩

theorem bounded_release {records' : List Refcount} {freed : List FreeExtent} {count : ℕ}
    (h : Bounded records) (hrelease : release records start count = .ok (freed, records')) :
    Bounded records' := by
  obtain ⟨_, horder, hrelease⟩ := bind_eq_ok.mp hrelease
  obtain ⟨-, -, hrelease⟩ := bind_eq_ok.mp hrelease
  obtain ⟨-, -, hrelease⟩ := bind_eq_ok.mp hrelease
  obtain ⟨-, rfl⟩ := Prod.mk.inj (Except.ok.inj hrelease)
  obtain ⟨hpair, hsound, -⟩ := checkOrderFrom_eq_ok.mp horder
  have hcounted : Counted 0 (2 ^ 32 - 1) records :=
    ⟨hpair, fun r hr => ⟨(hsound r hr).1, (hsound r hr).2, Nat.zero_le _, by
      have hlt := h.end_lt r hr
      omega⟩⟩
  have hlen := counted_length hcounted
  set cut := fun r : Refcount =>
    if (!r.cow && r.overlaps start (start + count)) = true then countPieces start (start + count) r
    else [r]
  have hcut : ∀ r, (cut r).length ≤ 3 ∧ ∀ p ∈ cut r, p.end_ ≤ r.end_ := by
    intro r
    by_cases htouch : (!r.cow && r.overlaps start (start + count)) = true
    · simp only [cut, if_pos htouch]
      exact countPieces_bound ((Bool.and_eq_true _ _).mp htouch).2
    · simp only [cut, if_neg htouch]
      exact ⟨by simp, fun p hp => by rw [List.mem_singleton.mp hp]⟩
  have hpieces : (records.flatMap cut).length ≤ records.length * 3 := by
    rw [List.length_flatMap]
    exact le_trans (List.sum_le_card_nsmul _ 3 fun n hn => by
      obtain ⟨r, -, rfl⟩ := List.mem_map.mp hn
      exact (hcut r).1) (by simp)
  have hcutends : ∀ p ∈ records.flatMap cut, p.end_ < 2 ^ 32 := by
    intro p hp
    obtain ⟨r, hr, hp⟩ := List.mem_flatMap.mp hp
    exact lt_of_le_of_lt ((hcut r).2 p hp) (h.end_lt r hr)
  obtain ⟨hmerged, hends⟩ := mergeAdjacent_bound hcutends
  exact ⟨hends, by omega⟩

end

end FsXfs.Group
