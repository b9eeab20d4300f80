import FsXfs.Superblock
import Mathlib.Data.List.TakeWhile
import Mathlib.Algebra.BigOperators.Group.List.Basic

/-!
# A group's free space

`alloc_btree.rs` on the runs a group's by-block tree lists: taking an extent out of the run that
holds it (`alloc_extent`) and putting one back, joined to the runs it touches (`free_extent`). The
source's binary search splits the list where its order puts the extent; the runs are in order
(`FreeRuns`), so the split is at the first run past it.
-/

namespace FsXfs.Group

set_option autoImplicit false

structure FreeExtent where
  startblock : ℕ
  blockcount : ℕ
  deriving DecidableEq, Repr

namespace FreeExtent

def end_ (e : FreeExtent) : ℕ :=
  e.startblock + e.blockcount

def Holds (e : FreeExtent) (b : ℕ) : Prop :=
  e.startblock ≤ b ∧ b < e.end_

instance (e : FreeExtent) (b : ℕ) : Decidable (e.Holds b) :=
  inferInstanceAs (Decidable (_ ∧ _))

end FreeExtent

def longest (free : List FreeExtent) : ℕ :=
  (free.map FreeExtent.blockcount).foldl max 0

def totalFree (free : List FreeExtent) : ℕ :=
  (free.map FreeExtent.blockcount).sum

/-! ## Editing the runs -/

def allocExtent (free : List FreeExtent) (extent : FreeExtent) : Except Error (List FreeExtent) :=
  if extent.blockcount = 0 then .error (.corruptLog "an extent of no blocks cannot be allocated")
  else
    let front := free.takeWhile fun e => decide (e.startblock ≤ extent.startblock)
    let back := free.dropWhile fun e => decide (e.startblock ≤ extent.startblock)
    match front.getLast? with
    | none =>
      .error (.corruptLog s!"allocating {extent.startblock}+{extent.blockcount} but no free run starts at or before it")
    | some run =>
      if run.end_ < extent.end_ then
        .error (.corruptLog s!"allocating {extent.startblock}+{extent.blockcount} runs past the free space at {run.startblock}+{run.blockcount}, so part of it is not free")
      else
        let atFront := decide (extent.startblock = run.startblock)
        let atBack := decide (extent.end_ = run.end_)
        .ok (front.dropLast ++
          (match atFront, atBack with
          | true, true => []
          | true, false =>
            [⟨run.startblock + extent.blockcount, run.blockcount - extent.blockcount⟩]
          | false, true => [⟨run.startblock, run.blockcount - extent.blockcount⟩]
          | false, false =>
            [⟨run.startblock, extent.startblock - run.startblock⟩,
              ⟨extent.end_, run.end_ - extent.end_⟩]) ++ back)

-- a count past a `u32` wraps
def joined (start count : ℕ) : FreeExtent :=
  ⟨start, count % 2 ^ 32⟩

def freeExtent (free : List FreeExtent) (extent : FreeExtent) : Except Error (List FreeExtent) :=
  let front := free.takeWhile fun e => decide (e.startblock < extent.startblock)
  let back := free.dropWhile fun e => decide (e.startblock < extent.startblock)
  if extent.blockcount = 0 then .error (.corruptLog "an extent of no blocks cannot be freed")
  else
    match (front.getLast?.filter fun e => decide (extent.startblock < e.end_)).or
        (back.head?.filter fun e => decide (e.startblock < extent.end_)) with
    | some e =>
      .error (.corruptLog s!"freeing {extent.startblock}+{extent.blockcount} overlaps free space at {e.startblock}+{e.blockcount}")
    | none =>
      let preceding := front.getLast?.filter fun e => decide (e.end_ = extent.startblock)
      let following := back.head?.filter fun e => decide (extent.end_ = e.startblock)
      match preceding, following with
      | some p, some f => .ok (front.dropLast ++
          joined p.startblock (p.blockcount + (extent.blockcount + f.blockcount)) :: back.tail)
      | some p, none => .ok (front.dropLast ++
          joined p.startblock (p.blockcount + extent.blockcount) :: back)
      | none, some f => .ok (front ++
          joined extent.startblock (f.blockcount + extent.blockcount) :: back.tail)
      | none, none => .ok (front ++ extent :: back)

/-! ## Runs in order -/

/-- Runs of the blocks from `lo` to `hi`, in order and apart. -/
structure FreeRuns (lo hi : ℕ) (free : List FreeExtent) : Prop where
  apart : free.Pairwise fun a b => a.end_ ≤ b.startblock
  pos : ∀ e ∈ free, 0 < e.blockcount
  lo_le : ∀ e ∈ free, lo ≤ e.startblock
  le_hi : ∀ e ∈ free, e.end_ ≤ hi

def Free (free : List FreeExtent) (b : ℕ) : Prop :=
  ∃ e ∈ free, e.Holds b

@[simp] theorem totalFree_nil : totalFree [] = 0 := rfl

@[simp] theorem totalFree_cons (e : FreeExtent) (free : List FreeExtent) :
    totalFree (e :: free) = e.blockcount + totalFree free := by
  simp [totalFree]

@[simp] theorem totalFree_append (a b : List FreeExtent) :
    totalFree (a ++ b) = totalFree a + totalFree b := by
  simp [totalFree]

theorem free_append {a b : List FreeExtent} {n : ℕ} : Free (a ++ b) n ↔ Free a n ∨ Free b n := by
  simp only [Free, List.mem_append, or_and_right, exists_or]

variable {e extent run : FreeExtent} {lo hi stop start : ℕ}

theorem free_cons {free : List FreeExtent} {n : ℕ} :
    Free (e :: free) n ↔ e.Holds n ∨ Free free n := by
  simp [Free]

theorem freeRuns_nil (lo hi : ℕ) : FreeRuns lo hi [] where
  apart := .nil
  pos _ h := absurd h (by simp)
  lo_le _ h := absurd h (by simp)
  le_hi _ h := absurd h (by simp)

theorem freeRuns_append {a b : List FreeExtent} :
    FreeRuns lo hi (a ++ b) ↔ FreeRuns lo hi a ∧ FreeRuns lo hi b ∧
      ∀ x ∈ a, ∀ y ∈ b, x.end_ ≤ y.startblock := by
  constructor
  · intro h
    obtain ⟨ha, hb, hab⟩ := List.pairwise_append.mp h.apart
    exact ⟨⟨ha, fun e he => h.pos e (List.mem_append_left _ he),
        fun e he => h.lo_le e (List.mem_append_left _ he),
        fun e he => h.le_hi e (List.mem_append_left _ he)⟩,
      ⟨hb, fun e he => h.pos e (List.mem_append_right _ he),
        fun e he => h.lo_le e (List.mem_append_right _ he),
        fun e he => h.le_hi e (List.mem_append_right _ he)⟩, hab⟩
  · rintro ⟨ha, hb, hab⟩
    refine ⟨List.pairwise_append.mpr ⟨ha.apart, hb.apart, hab⟩, fun e he => ?_, fun e he => ?_,
      fun e he => ?_⟩
    all_goals rcases List.mem_append.mp he with he | he
    · exact ha.pos e he
    · exact hb.pos e he
    · exact ha.lo_le e he
    · exact hb.lo_le e he
    · exact ha.le_hi e he
    · exact hb.le_hi e he

theorem freeRuns_singleton :
    FreeRuns lo hi [e] ↔ 0 < e.blockcount ∧ lo ≤ e.startblock ∧ e.end_ ≤ hi := by
  constructor
  · intro h
    exact ⟨h.pos e List.mem_cons_self, h.lo_le e List.mem_cons_self, h.le_hi e List.mem_cons_self⟩
  · rintro ⟨hpos, hlo, hhi⟩
    refine ⟨List.pairwise_singleton _ _, fun x hx => ?_, fun x hx => ?_, fun x hx => ?_⟩
    all_goals rw [List.mem_singleton.mp hx]; assumption

/-! ## Taking an extent -/

def piece (start stop : ℕ) : List FreeExtent :=
  if start < stop then [⟨start, stop - start⟩] else []

theorem piece_of_lt (h : start < stop) : piece start stop = [⟨start, stop - start⟩] :=
  if_pos h

theorem piece_of_le (h : stop ≤ start) : piece start stop = [] :=
  if_neg (Nat.not_lt.mpr h)

theorem totalFree_piece (start stop : ℕ) : totalFree (piece start stop) = stop - start := by
  by_cases h : start < stop
  · rw [piece_of_lt h, totalFree_cons, totalFree_nil, Nat.add_zero]
  · rw [piece_of_le (by omega), totalFree_nil]
    omega

theorem mem_piece (h : e ∈ piece start stop) :
    e.startblock = start ∧ e.end_ = stop ∧ 0 < e.blockcount := by
  by_cases hlt : start < stop
  · rw [piece_of_lt hlt] at h
    have he := List.mem_singleton.mp h
    subst he
    refine ⟨rfl, ?_, by dsimp only; omega⟩
    simp only [FreeExtent.end_]
    omega
  · rw [piece_of_le (by omega)] at h
    cases h

theorem free_piece {start stop b : ℕ} : Free (piece start stop) b ↔ start ≤ b ∧ b < stop := by
  by_cases h : start < stop
  · rw [piece_of_lt h]
    simp only [Free, List.mem_singleton, exists_eq_left, FreeExtent.Holds, FreeExtent.end_]
    omega
  · rw [piece_of_le (by omega)]
    simp only [Free, List.not_mem_nil, false_and, exists_false, false_iff]
    omega

theorem freeRuns_piece (hlo : lo ≤ start) (hhi : stop ≤ hi) :
    FreeRuns lo hi (piece start stop) := by
  by_cases h : start < stop
  · rw [piece_of_lt h, freeRuns_singleton]
    simp only [FreeExtent.end_]
    omega
  · rw [piece_of_le (by omega)]
    exact freeRuns_nil lo hi

def remains (run extent : FreeExtent) : List FreeExtent :=
  piece run.startblock extent.startblock ++ piece extent.end_ run.end_

theorem allocExtent_spec {free free' : List FreeExtent}
    (h : allocExtent free extent = .ok free') :
    ∃ kept run back, free = kept ++ run :: back ∧ free' = kept ++ (remains run extent ++ back) ∧
      0 < extent.blockcount ∧ run.startblock ≤ extent.startblock ∧ extent.end_ ≤ run.end_ := by
  unfold allocExtent at h
  split at h
  · cases h
  next hpos =>
  set test := fun e : FreeExtent => decide (e.startblock ≤ extent.startblock) with htest
  dsimp only at h
  cases hlast : (free.takeWhile test).getLast? with
  | none => rw [hlast] at h; cases h
  | some run =>
    rw [hlast] at h
    dsimp only at h
    split at h
    · cases h
    next hend =>
    have hfront := List.dropLast_append_getLast? run hlast
    have hfree : free = (free.takeWhile test).dropLast ++ run :: free.dropWhile test := by
      conv_lhs => rw [← List.takeWhile_append_dropWhile (p := test) (l := free), ← hfront]
      simp
    have hrun : run.startblock ≤ extent.startblock := by
      have hmem : run ∈ free.takeWhile test := List.mem_of_getLast? hlast
      simpa [htest] using List.mem_takeWhile_imp hmem
    refine ⟨_, run, _, hfree, ?_, by omega, hrun, Nat.le_of_not_lt hend⟩
    have hremains : (match decide (extent.startblock = run.startblock),
        decide (extent.end_ = run.end_) with
      | true, true => []
      | true, false => [⟨run.startblock + extent.blockcount, run.blockcount - extent.blockcount⟩]
      | false, true => [⟨run.startblock, run.blockcount - extent.blockcount⟩]
      | false, false => [⟨run.startblock, extent.startblock - run.startblock⟩,
          ⟨extent.end_, run.end_ - extent.end_⟩] : List FreeExtent) = remains run extent := by
      have hext : extent.end_ = extent.startblock + extent.blockcount := rfl
      have hrunend : run.end_ = run.startblock + run.blockcount := rfl
      unfold remains
      by_cases hs : extent.startblock = run.startblock
      · by_cases he : extent.end_ = run.end_
        · rw [decide_eq_true hs, decide_eq_true he, piece_of_le (by omega), piece_of_le (by omega)]
          rfl
        · rw [decide_eq_true hs, decide_eq_false he, piece_of_le (by omega), piece_of_lt (by omega)]
          simp only [List.nil_append, List.cons.injEq, FreeExtent.mk.injEq, and_true]
          omega
      · by_cases he : extent.end_ = run.end_
        · rw [decide_eq_false hs, decide_eq_true he, piece_of_lt (by omega), piece_of_le (by omega)]
          simp only [List.append_nil, List.cons.injEq, FreeExtent.mk.injEq, true_and, and_true]
          omega
        · rw [decide_eq_false hs, decide_eq_false he, piece_of_lt (by omega), piece_of_lt (by omega)]
          rfl
    rw [← Except.ok.inj h, hremains, List.append_assoc]

theorem freeRuns_remains (hrun : FreeRuns lo hi [run])
    (hs : run.startblock ≤ extent.startblock) (he : extent.end_ ≤ run.end_) :
    FreeRuns lo hi (remains run extent) := by
  obtain ⟨hpos, hlo, hhi⟩ := freeRuns_singleton.mp hrun
  have hext : extent.end_ = extent.startblock + extent.blockcount := rfl
  rw [remains, freeRuns_append]
  refine ⟨freeRuns_piece hlo (by omega), freeRuns_piece (by omega) hhi, fun x hx y hy => ?_⟩
  rw [(mem_piece hx).2.1, (mem_piece hy).1]
  omega

section

variable {lo hi : ℕ} {free free' : List FreeExtent} {extent : FreeExtent}

theorem totalFree_allocExtent (h : allocExtent free extent = .ok free') :
    totalFree free' + extent.blockcount = totalFree free := by
  obtain ⟨kept, run, back, rfl, rfl, -, hs, he⟩ := allocExtent_spec h
  simp only [remains, totalFree_append, totalFree_cons, totalFree_piece]
  simp only [FreeExtent.end_] at he ⊢
  omega

theorem FreeRuns.alloc (hruns : FreeRuns lo hi free) (h : allocExtent free extent = .ok free') :
    FreeRuns lo hi free' := by
  obtain ⟨kept, run, back, rfl, rfl, -, hs, he⟩ := allocExtent_spec h
  obtain ⟨hkept, hrest, hbefore⟩ := freeRuns_append.mp hruns
  obtain ⟨hrun, hback, hafter⟩ := freeRuns_append.mp (show FreeRuns lo hi ([run] ++ back) from hrest)
  have hpieces := freeRuns_remains hrun hs he
  have hbounds : ∀ x ∈ remains run extent, run.startblock ≤ x.startblock ∧ x.end_ ≤ run.end_ := by
    have hext : extent.end_ = extent.startblock + extent.blockcount := rfl
    intro x hx
    rcases List.mem_append.mp hx with hx | hx
    all_goals
      obtain ⟨hstart, hend, -⟩ := mem_piece hx
      omega
  rw [freeRuns_append, freeRuns_append]
  refine ⟨hkept, ⟨hpieces, hback, fun x hx y hy => ?_⟩, fun x hx y hy => ?_⟩
  · exact le_trans (hbounds x hx).2 (hafter run List.mem_cons_self y hy)
  · rcases List.mem_append.mp hy with hy | hy
    · exact le_trans (hbefore x hx run List.mem_cons_self) (hbounds y hy).1
    · exact hbefore x hx y (List.mem_cons_of_mem _ hy)

theorem free_allocExtent (hruns : FreeRuns lo hi free) (h : allocExtent free extent = .ok free')
    {b : ℕ} : Free free' b ↔ Free free b ∧ ¬extent.Holds b := by
  obtain ⟨kept, run, back, rfl, rfl, -, hs, he⟩ := allocExtent_spec h
  obtain ⟨-, hrest, hbefore⟩ := freeRuns_append.mp hruns
  obtain ⟨-, -, hafter⟩ := freeRuns_append.mp (show FreeRuns lo hi ([run] ++ back) from hrest)
  have houter : ∀ e : FreeExtent, e.end_ ≤ run.startblock ∨ run.end_ ≤ e.startblock →
      e.Holds b → ¬extent.Holds b := by
    intro e hapart hin hext
    simp only [FreeExtent.Holds, FreeExtent.end_] at hapart hin hext he
    omega
  have hkept : Free kept b → ¬extent.Holds b := fun ⟨e, hmem, hin⟩ =>
    houter e (.inl (hbefore e hmem run List.mem_cons_self)) hin
  have hback : Free back b → ¬extent.Holds b := fun ⟨e, hmem, hin⟩ =>
    houter e (.inr (hafter run List.mem_cons_self e hmem)) hin
  have hremains : Free (remains run extent) b ↔ run.Holds b ∧ ¬extent.Holds b := by
    rw [remains, free_append, free_piece, free_piece]
    simp only [FreeExtent.Holds]
    have hext : extent.end_ = extent.startblock + extent.blockcount := rfl
    omega
  rw [free_append, free_append, hremains, free_append, free_cons]
  tauto

theorem free_of_allocExtent (h : allocExtent free extent = .ok free') {b : ℕ}
    (hb : extent.Holds b) : Free free b := by
  obtain ⟨kept, run, back, rfl, -, -, hs, he⟩ := allocExtent_spec h
  refine ⟨run, by simp, ?_⟩
  simp only [FreeExtent.Holds, FreeExtent.end_] at hb he ⊢
  omega

end

/-! ## Giving one back -/

section

variable {lo hi : ℕ} {free free' : List FreeExtent} {extent : FreeExtent}

variable {n : ℕ}

theorem end_lt_of_getLast? {front : List FreeExtent} (hruns : FreeRuns lo hi front)
    (hlast : ∀ e, front.getLast? = some e → e.end_ < n) : ∀ e ∈ front, e.end_ < n := by
  intro e he
  rcases List.eq_nil_or_concat front with rfl | ⟨init, last, rfl⟩
  · cases he
  rw [List.concat_eq_append] at hruns he hlast
  have hend := hlast last (by simp)
  obtain ⟨-, -, hbefore⟩ := freeRuns_append.mp hruns
  rcases List.mem_append.mp he with he | he
  · have hle := hbefore e he last List.mem_cons_self
    simp only [FreeExtent.end_] at *
    omega
  · rw [List.mem_singleton.mp he]
    exact hend

theorem lt_startblock_of_head? {back : List FreeExtent} (hruns : FreeRuns lo hi back)
    (hhead : ∀ e, back.head? = some e → n < e.startblock) : ∀ e ∈ back, n < e.startblock := by
  intro e he
  cases back with
  | nil => cases he
  | cons first rest =>
    have hfirst := hhead first rfl
    obtain ⟨-, -, hafter⟩ := freeRuns_append.mp (show FreeRuns lo hi ([first] ++ rest) from hruns)
    rcases List.mem_cons.mp he with rfl | he
    · exact hfirst
    · have hle := hafter first List.mem_cons_self e he
      simp only [FreeExtent.end_] at *
      omega

theorem piece_self {e : FreeExtent} (h : 0 < e.blockcount) : piece e.startblock e.end_ = [e] := by
  rw [piece_of_lt (by simp only [FreeExtent.end_]; omega)]
  simp [FreeExtent.end_]

theorem front_split {front : List FreeExtent} (hruns : FreeRuns lo hi front)
    (hlast : ∀ e, front.getLast? = some e → e.end_ ≤ n) :
    ∃ kept start, start ≤ n ∧ front = kept ++ piece start n ∧
      (∀ e ∈ kept, e.end_ ≤ start ∧ e.end_ ≠ n) ∧
      match front.getLast?.filter fun e => decide (e.end_ = n) with
      | none => kept = front ∧ start = n
      | some p => kept = front.dropLast ∧ p.startblock = start ∧ start + p.blockcount = n := by
  cases hjoin : front.getLast?.filter (fun e => decide (e.end_ = n)) with
  | none =>
    have hlt := end_lt_of_getLast? hruns fun e he => lt_of_le_of_ne (hlast e he) (by
      simpa using Option.filter_eq_none_iff.mp hjoin e he)
    refine ⟨front, n, le_refl n, ?_, fun e he => ⟨(hlt e he).le, (hlt e he).ne⟩, rfl, rfl⟩
    rw [piece_of_le (le_refl n), List.append_nil]
  | some p =>
    obtain ⟨hp, htouch⟩ := Option.filter_eq_some_iff.mp hjoin
    have hend : p.end_ = n := by simpa using htouch
    have hfront := List.dropLast_append_getLast? p hp
    have hpos := hruns.pos p (List.mem_of_getLast? hp)
    rw [← hfront] at hruns
    obtain ⟨-, -, hbefore⟩ := freeRuns_append.mp hruns
    have hlt : p.startblock < n := by
      rw [← hend, FreeExtent.end_]
      omega
    refine ⟨front.dropLast, p.startblock, hlt.le, ?_, fun e he => ?_, rfl, rfl, hend⟩
    · rw [← hend, piece_self hpos, hfront]
    · have hle := hbefore e he p List.mem_cons_self
      exact ⟨hle, (lt_of_le_of_lt hle hlt).ne⟩

theorem back_split {back : List FreeExtent} (hruns : FreeRuns lo hi back) (hn : n ≤ hi)
    (hhead : ∀ e, back.head? = some e → n ≤ e.startblock) :
    ∃ rest stop, n ≤ stop ∧ stop ≤ hi ∧ back = piece n stop ++ rest ∧
      (∀ e ∈ rest, stop ≤ e.startblock ∧ e.startblock ≠ n) ∧
      match back.head?.filter fun e => decide (n = e.startblock) with
      | none => rest = back ∧ stop = n
      | some f => rest = back.tail ∧ n + f.blockcount = stop := by
  cases hjoin : back.head?.filter (fun e => decide (n = e.startblock)) with
  | none =>
    have hlt := lt_startblock_of_head? hruns fun e he => lt_of_le_of_ne (hhead e he) (by
      simpa using Option.filter_eq_none_iff.mp hjoin e he)
    refine ⟨back, n, le_refl n, hn, ?_, fun e he => ⟨(hlt e he).le, (hlt e he).ne'⟩, rfl, rfl⟩
    rw [piece_of_le (le_refl n), List.nil_append]
  | some f =>
    obtain ⟨hf, htouch⟩ := Option.filter_eq_some_iff.mp hjoin
    have hstart : n = f.startblock := by simpa using htouch
    obtain ⟨rest, rfl⟩ := List.head?_eq_some_iff.mp hf
    have hpos := hruns.pos f List.mem_cons_self
    obtain ⟨-, -, hafter⟩ := freeRuns_append.mp (show FreeRuns lo hi ([f] ++ rest) from hruns)
    have hlt : n < f.end_ := by
      rw [hstart, FreeExtent.end_]
      omega
    refine ⟨rest, f.end_, hlt.le, hruns.le_hi f List.mem_cons_self, ?_, fun e he => ?_, rfl, ?_⟩
    · rw [hstart, piece_self hpos]
      rfl
    · have hle := hafter f List.mem_cons_self e he
      exact ⟨hle, (lt_of_lt_of_le hlt hle).ne'⟩
    · rw [hstart, FreeExtent.end_]

theorem joined_eq {start count : ℕ} (stop : ℕ) (hsum : start + count = stop) (hstop : stop < 2 ^ 32) :
    joined start count = ⟨start, stop - start⟩ := by
  rw [joined, Nat.mod_eq_of_lt (by omega), FreeExtent.mk.injEq]
  omega

section

variable (hruns : FreeRuns lo hi free) (hhi : hi < 2 ^ 32) (hext : extent.end_ ≤ hi)
  (h : freeExtent free extent = .ok free')

include hruns hhi hext h

theorem freeExtent_spec :
    ∃ kept rest start stop, start ≤ extent.startblock ∧ extent.end_ ≤ stop ∧ 0 < extent.blockcount ∧
      free = kept ++ (piece start extent.startblock ++ (piece extent.end_ stop ++ rest)) ∧
      free' = kept ++ (⟨start, stop - start⟩ :: rest) ∧ stop ≤ hi ∧
      (∀ e ∈ kept, e.end_ ≤ start ∧ e.end_ ≠ extent.startblock) ∧
      ∀ e ∈ rest, stop ≤ e.startblock ∧ e.startblock ≠ extent.end_ := by
  unfold freeExtent at h
  set test := fun e : FreeExtent => decide (e.startblock < extent.startblock) with htest
  dsimp only at h
  split at h
  · cases h
  next hne =>
  have hpos : 0 < extent.blockcount := Nat.pos_of_ne_zero hne
  have hend : extent.end_ = extent.startblock + extent.blockcount := rfl
  have hfree : free = free.takeWhile test ++ free.dropWhile test :=
    (List.takeWhile_append_dropWhile).symm
  set front := free.takeWhile test with hfront
  set back := free.dropWhile test with hback
  rw [hfree] at hruns
  obtain ⟨hfrontruns, hbackruns, -⟩ := freeRuns_append.mp hruns
  cases hover : (front.getLast?.filter fun e => decide (extent.startblock < e.end_)).or
      (back.head?.filter fun e => decide (e.startblock < extent.end_)) with
  | some e => rw [hover] at h; cases h
  | none =>
  rw [hover] at h
  obtain ⟨hlast, hhead⟩ := Option.or_eq_none_iff.mp hover
  have hlast' : ∀ e, front.getLast? = some e → e.end_ ≤ extent.startblock := fun e he => by
    simpa using Option.filter_eq_none_iff.mp hlast e he
  have hhead' : ∀ e, back.head? = some e → extent.end_ ≤ e.startblock := fun e he => by
    simpa using Option.filter_eq_none_iff.mp hhead e he
  obtain ⟨kept, start, hstart, hkeep, hkept, hbefore⟩ := front_split hfrontruns hlast'
  obtain ⟨rest, stop, hstop, hle, hkeep', hrest, hafter⟩ := back_split hbackruns hext hhead'
  refine ⟨kept, rest, start, stop, hstart, hstop, hpos, ?_, ?_, hle, hkept, hrest⟩
  · rw [← hkeep', ← List.append_assoc, ← hkeep, ← hfree]
  · -- which of its neighbours the extent is joined to
    cases hp : front.getLast?.filter fun e => decide (e.end_ = extent.startblock) with
    | none =>
      rw [hp] at h hbefore
      obtain ⟨rfl, rfl⟩ := hbefore
      cases hf : back.head?.filter fun e => decide (extent.end_ = e.startblock) with
      | none =>
        rw [hf] at h hafter
        obtain ⟨rfl, rfl⟩ := hafter
        rw [← Except.ok.inj h, hend, Nat.add_sub_cancel_left]
      | some f =>
        rw [hf] at h hafter
        obtain ⟨rfl, hcount⟩ := hafter
        rw [← Except.ok.inj h, joined_eq stop (by omega) (by omega)]
    | some p =>
      rw [hp] at h hbefore
      obtain ⟨rfl, rfl, hcount⟩ := hbefore
      cases hf : back.head?.filter fun e => decide (extent.end_ = e.startblock) with
      | none =>
        rw [hf] at h hafter
        obtain ⟨rfl, rfl⟩ := hafter
        rw [← Except.ok.inj h, joined_eq extent.end_ (by omega) (by omega)]
      | some f =>
        rw [hf] at h hafter
        obtain ⟨rfl, hcount'⟩ := hafter
        rw [← Except.ok.inj h, joined_eq stop (by omega) (by omega)]

theorem totalFree_freeExtent : totalFree free' = totalFree free + extent.blockcount := by
  obtain ⟨kept, rest, start, stop, hs, ht, hpos, rfl, rfl, -, -, -⟩ :=
    freeExtent_spec hruns hhi hext h
  have hend : extent.end_ = extent.startblock + extent.blockcount := rfl
  simp only [totalFree_append, totalFree_cons, totalFree_piece]
  omega

theorem FreeRuns.giveBack (hlo : lo ≤ extent.startblock) : FreeRuns lo hi free' := by
  obtain ⟨kept, rest, start, stop, hs, ht, hpos, rfl, rfl, hstop, hkept, hrest⟩ :=
    freeExtent_spec hruns hhi hext h
  have hend : extent.end_ = extent.startblock + extent.blockcount := rfl
  obtain ⟨hkeptruns, htail, -⟩ := freeRuns_append.mp hruns
  obtain ⟨hfirst, htail, -⟩ := freeRuns_append.mp htail
  obtain ⟨-, hrestruns, -⟩ := freeRuns_append.mp htail
  have hstart : lo ≤ start := by
    by_cases hlt : start < extent.startblock
    · rw [piece_of_lt hlt] at hfirst
      exact hfirst.lo_le _ List.mem_cons_self
    · omega
  have hnew : (⟨start, stop - start⟩ : FreeExtent).end_ = stop := by
    simp only [FreeExtent.end_]
    omega
  change FreeRuns lo hi (kept ++ ([⟨start, stop - start⟩] ++ rest))
  rw [freeRuns_append, freeRuns_append, freeRuns_singleton, hnew]
  refine ⟨hkeptruns, ⟨⟨by dsimp only; omega, hstart, hstop⟩, hrestruns, fun x hx y hy => ?_⟩,
    fun x hx y hy => ?_⟩
  · rw [List.mem_singleton.mp hx, hnew]
    exact (hrest y hy).1
  · rcases List.mem_append.mp hy with hy | hy
    · rw [List.mem_singleton.mp hy]
      exact (hkept x hx).1
    · have hx' := hkept x hx
      have hy' := hrest y hy
      omega

theorem free_freeExtent {b : ℕ} : Free free' b ↔ Free free b ∨ extent.Holds b := by
  obtain ⟨kept, rest, start, stop, hs, ht, hpos, rfl, rfl, -, -, -⟩ :=
    freeExtent_spec hruns hhi hext h
  have hnew : (⟨start, stop - start⟩ : FreeExtent).Holds b ↔ (start ≤ b ∧ b < extent.startblock) ∨
      extent.Holds b ∨ (extent.end_ ≤ b ∧ b < stop) := by
    simp only [FreeExtent.Holds, FreeExtent.end_] at *
    omega
  rw [free_append, free_cons, hnew, free_append, free_append, free_append, free_piece, free_piece]
  tauto

theorem not_free_of_freeExtent {b : ℕ} (hb : extent.Holds b) : ¬Free free b := by
  obtain ⟨kept, rest, start, stop, hs, ht, -, rfl, -, -, hkept, hrest⟩ :=
    freeExtent_spec hruns hhi hext h
  rw [free_append, free_append, free_append, free_piece, free_piece]
  simp only [FreeExtent.Holds] at hb
  rintro (⟨e, he, hin⟩ | hin | hin | ⟨e, he, hin⟩)
  · have hle := hkept e he
    simp only [FreeExtent.Holds] at hin
    omega
  · omega
  · omega
  · have hle := hrest e he
    simp only [FreeExtent.Holds] at hin
    omega

end

/-! ## What is refused -/

theorem freeExtent_eq_error {err : Error} (hruns : FreeRuns lo hi free)
    (h : freeExtent free extent = .error err) :
    extent.blockcount = 0 ∨ ∃ b, extent.Holds b ∧ Free free b := by
  unfold freeExtent at h
  set test := fun e : FreeExtent => decide (e.startblock < extent.startblock) with htest
  dsimp only at h
  split at h
  next hzero => exact .inl hzero
  next hne =>
  have hend : extent.end_ = extent.startblock + extent.blockcount := rfl
  split at h
  next e hover =>
    rcases Option.or_eq_some_iff.mp hover with hlast | ⟨-, hhead⟩
    · obtain ⟨hlast, hend'⟩ := Option.filter_eq_some_iff.mp hlast
      have hmem : e ∈ free.takeWhile test := List.mem_of_getLast? hlast
      have hlt := List.mem_takeWhile_imp hmem
      simp only [htest, decide_eq_true_eq] at hlt hend'
      exact .inr ⟨extent.startblock, ⟨le_refl _, by omega⟩, e,
        (List.takeWhile_prefix _).subset hmem, hlt.le, hend'⟩
    · obtain ⟨hhead, hlt⟩ := Option.filter_eq_some_iff.mp hhead
      have hmem := (List.dropWhile_suffix test).subset (List.mem_of_mem_head? hhead)
      have hge := List.head?_dropWhile_not test free
      rw [hhead] at hge
      have hpos := hruns.pos e hmem
      simp only [htest, decide_eq_true_eq, decide_eq_false_iff_not] at hge hlt
      refine .inr ⟨e.startblock, ⟨by omega, hlt⟩, e, hmem, le_refl _, ?_⟩
      rw [FreeExtent.end_]
      omega
  next => split at h <;> cases h

/-! ## Runs that do not touch -/

/-- Runs with nothing free just past any of them, so no two of them could be one. -/
structure MergedRuns (lo hi : ℕ) (free : List FreeExtent) : Prop extends FreeRuns lo hi free where
  merged : ∀ e ∈ free, ¬Free free e.end_

theorem allocExtent_eq_error {err : Error} (hruns : MergedRuns lo hi free)
    (h : allocExtent free extent = .error err) :
    extent.blockcount = 0 ∨ ∃ b, extent.Holds b ∧ ¬Free free b := by
  unfold allocExtent at h
  split at h
  next hzero => exact .inl hzero
  next hne =>
  have hend : extent.end_ = extent.startblock + extent.blockcount := rfl
  set test := fun e : FreeExtent => decide (e.startblock ≤ extent.startblock) with htest
  have hsplit : free = free.takeWhile test ++ free.dropWhile test :=
    (List.takeWhile_append_dropWhile).symm
  have hruns' := hruns.toFreeRuns
  rw [hsplit] at hruns'
  obtain ⟨hfront, hback, -⟩ := freeRuns_append.mp hruns'
  have hpast : ∀ e ∈ free.dropWhile test, extent.startblock < e.startblock :=
    lt_startblock_of_head? hback fun e he => by
      have hnot := List.head?_dropWhile_not test free
      rw [he] at hnot
      simpa [htest] using hnot
  dsimp only at h
  split at h
  next hlast =>
    refine .inr ⟨extent.startblock, ⟨le_refl _, by omega⟩, fun ⟨e, he, hin⟩ => ?_⟩
    rw [hsplit, List.getLast?_eq_none_iff.mp hlast] at he
    exact absurd hin.1 (Nat.not_le.mpr (hpast e he))
  next run hlast =>
  split at h
  next hshort =>
    have hrun := List.mem_of_getLast? hlast
    have hmem := (List.takeWhile_prefix test).subset hrun
    -- the first block from the extent's start on that `run` does not hold
    refine .inr ⟨max run.end_ extent.startblock, ⟨le_max_right _ _, by omega⟩, ?_⟩
    rintro ⟨e, he, hin⟩
    have hlater : e ∉ free.takeWhile test := fun he => by
      have hle := end_lt_of_getLast? (n := run.end_ + 1) hfront (by simp [hlast]) e he
      simp only [FreeExtent.Holds] at hin
      omega
    rw [hsplit] at he
    have hgt := hpast e ((List.mem_append.mp he).resolve_left hlater)
    refine hruns.merged run hmem ⟨e, hsplit ▸ he, ?_⟩
    simp only [FreeExtent.Holds] at hin ⊢
    omega
  next => cases h

theorem MergedRuns.alloc (hruns : MergedRuns lo hi free) (h : allocExtent free extent = .ok free') :
    MergedRuns lo hi free' := by
  refine ⟨hruns.toFreeRuns.alloc h, fun e he hfree => ?_⟩
  rw [free_allocExtent hruns.toFreeRuns h] at hfree
  obtain ⟨kept, run, back, rfl, rfl, hpos, -, -⟩ := allocExtent_spec h
  have hold : ∀ a ∈ kept ++ run :: back, e.end_ ≠ a.end_ :=
    fun a ha heq => hruns.merged a ha (heq ▸ hfree.1)
  rcases List.mem_append.mp he with he | he
  · exact hold e (List.mem_append_left _ he) rfl
  rcases List.mem_append.mp he with he | he
  · rcases List.mem_append.mp he with he | he
    · refine hfree.2 ?_
      rw [(mem_piece he).2.1]
      simp only [FreeExtent.Holds, FreeExtent.end_]
      omega
    · exact hold run (by simp) (mem_piece he).2.1
  · exact hold e (by simp [he]) rfl

theorem MergedRuns.giveBack (hruns : MergedRuns lo hi free) (hhi : hi < 2 ^ 32)
    (hlo : lo ≤ extent.startblock) (hext : extent.end_ ≤ hi)
    (h : freeExtent free extent = .ok free') : MergedRuns lo hi free' := by
  refine ⟨hruns.toFreeRuns.giveBack hhi hext h hlo, fun e he hfree => ?_⟩
  rw [free_freeExtent hruns.toFreeRuns hhi hext h] at hfree
  obtain ⟨kept, rest, start, stop, hs, ht, hpos, hsplit, rfl, -, hkept, hrest⟩ :=
    freeExtent_spec hruns.toFreeRuns hhi hext h
  have hold : ∀ a ∈ free, e.end_ = a.end_ → extent.Holds e.end_ :=
    fun a ha heq => hfree.resolve_left (heq ▸ hruns.merged a ha)
  rcases List.mem_append.mp he with he | he
  · have hin := hold e (by simp [hsplit, he]) rfl
    have hle := hkept e he
    simp only [FreeExtent.Holds] at hin
    omega
  rcases List.mem_cons.mp he with rfl | he
  · have hnew : (⟨start, stop - start⟩ : FreeExtent).end_ = stop := by
      simp only [FreeExtent.end_] at *
      omega
    rw [hnew] at hold hfree
    by_cases hlt : extent.end_ < stop
    · have hin := hold ⟨extent.end_, stop - extent.end_⟩ (by simp [hsplit, piece_of_lt hlt])
        (by simp only [FreeExtent.end_] at *; omega)
      exact absurd hin.2 (Nat.not_lt.mpr ht)
    · rw [hsplit, free_append, free_append, free_append, free_piece, free_piece] at hfree
      simp only [FreeExtent.Holds] at hfree
      rcases hfree with (⟨a, ha, hin⟩ | hin | hin | ⟨a, ha, hin⟩) | hin
      · have hle := hkept a ha
        simp only [FreeExtent.Holds, FreeExtent.end_] at *
        omega
      · simp only [FreeExtent.end_] at *
        omega
      · omega
      · have hle := hrest a ha
        simp only [FreeExtent.Holds] at hin
        omega
      · omega
  · have hin := hold e (by simp [hsplit, he]) rfl
    have hle := hrest e he
    simp only [FreeExtent.Holds, FreeExtent.end_] at *
    omega

theorem MergedRuns.tail {rest : List FreeExtent} {e : FreeExtent}
    (h : MergedRuns lo hi (e :: rest)) :
    MergedRuns lo hi rest ∧ ∀ b, Free rest b ↔ Free (e :: rest) b ∧ e.end_ ≤ b := by
  obtain ⟨-, hrest, hafter⟩ :=
    freeRuns_append.mp (show FreeRuns lo hi ([e] ++ rest) from h.toFreeRuns)
  refine ⟨⟨hrest, fun a ha hfree => h.merged a (List.mem_cons_of_mem _ ha)
    (free_cons.mpr (.inr hfree))⟩, fun b => ?_⟩
  rw [free_cons]
  constructor
  · rintro ⟨a, ha, hin⟩
    exact ⟨.inr ⟨a, ha, hin⟩, (hafter e List.mem_cons_self a ha).trans hin.1⟩
  · rintro ⟨hin | hfree, hle⟩
    · exact absurd hin.2 (Nat.not_lt.mpr hle)
    · exact hfree

theorem MergedRuns.head_le {rest rest' : List FreeExtent} {e e' : FreeExtent}
    (h : MergedRuns lo hi (e :: rest)) (hpos : 0 < e'.blockcount)
    (hsub : ∀ b, Free (e' :: rest') b → Free (e :: rest) b) :
    e.startblock ≤ e'.startblock ∧ (e'.startblock ≤ e.startblock → e'.end_ ≤ e.end_) := by
  have hin : ∀ b, e'.Holds b → Free (e :: rest) b := fun b hb => hsub b (free_cons.mpr (.inl hb))
  constructor
  · rcases free_cons.mp (hin e'.startblock ⟨le_refl _, by rw [FreeExtent.end_]; omega⟩) with hb | hb
    · exact hb.1
    · have hle := ((h.tail.2 _).mp hb).2
      simp only [FreeExtent.end_] at hle
      omega
  · intro hle
    by_contra hlt
    refine h.merged e List.mem_cons_self (hin e.end_ ⟨?_, by omega⟩)
    rw [FreeExtent.end_]
    omega

/-- Merged runs are the set of blocks they list. -/
theorem MergedRuns.eq_of_free {other : List FreeExtent} (h : MergedRuns lo hi free)
    (h' : MergedRuns lo hi other) (heq : ∀ b, Free free b ↔ Free other b) : free = other := by
  induction free generalizing other with
  | nil =>
    cases other with
    | nil => rfl
    | cons e' rest' =>
      have hpos := h'.pos e' List.mem_cons_self
      obtain ⟨a, ha, -⟩ := (heq e'.startblock).mpr
        (free_cons.mpr (.inl ⟨le_refl _, by rw [FreeExtent.end_]; omega⟩))
      cases ha
  | cons e rest ih =>
    have hpos := h.pos e List.mem_cons_self
    cases other with
    | nil =>
      obtain ⟨a, ha, -⟩ := (heq e.startblock).mp
        (free_cons.mpr (.inl ⟨le_refl _, by rw [FreeExtent.end_]; omega⟩))
      cases ha
    | cons e' rest' =>
      have hle := h.head_le (h'.pos e' List.mem_cons_self) fun b => (heq b).mpr
      have hge := h'.head_le hpos fun b => (heq b).mp
      have hhead : e = e' := by
        cases e
        cases e'
        simp only [FreeExtent.end_, FreeExtent.mk.injEq] at *
        omega
      subst hhead
      rw [ih h.tail.1 h'.tail.1 fun b => by rw [h.tail.2, h'.tail.2, heq]]

theorem freeExtent_allocExtent (hruns : MergedRuns lo hi free) (hhi : hi < 2 ^ 32)
    (hlo : lo ≤ extent.startblock) (hext : extent.end_ ≤ hi)
    (h : allocExtent free extent = .ok free') : freeExtent free' extent = .ok free := by
  have hruns' := hruns.alloc h
  obtain ⟨-, -, -, -, -, hpos, -⟩ := allocExtent_spec h
  cases hback : freeExtent free' extent with
  | error err =>
    rcases freeExtent_eq_error hruns'.toFreeRuns hback with hzero | ⟨b, hin, hfree⟩
    · omega
    · exact absurd hin ((free_allocExtent hruns.toFreeRuns h).mp hfree).2
  | ok free'' =>
    rw [(hruns'.giveBack hhi hlo hext hback).eq_of_free hruns fun b => ?_]
    have hin := @free_of_allocExtent _ _ _ h b
    rw [free_freeExtent hruns'.toFreeRuns hhi hext hback, free_allocExtent hruns.toFreeRuns h]
    tauto

theorem free_space_edits (hruns : MergedRuns lo hi free) (hhi : hi < 2 ^ 32)
    (hlo : lo ≤ extent.startblock) (hext : extent.end_ ≤ hi) :
    (∀ free', freeExtent free extent = .ok free' →
        MergedRuns lo hi free' ∧ ∀ b, Free free' b ↔ Free free b ∨ extent.Holds b) ∧
      (∀ free', allocExtent free extent = .ok free' → MergedRuns lo hi free' ∧
        (∀ b, Free free' b ↔ Free free b ∧ ¬extent.Holds b) ∧ freeExtent free' extent = .ok free) ∧
      ((∃ err, freeExtent free extent = .error err) ↔
        extent.blockcount = 0 ∨ ∃ b, extent.Holds b ∧ Free free b) ∧
      ((∃ err, allocExtent free extent = .error err) ↔
        extent.blockcount = 0 ∨ ∃ b, extent.Holds b ∧ ¬Free free b) := by
  refine ⟨fun free' h => ⟨hruns.giveBack hhi hlo hext h, fun b => ?_⟩,
    fun free' h => ⟨hruns.alloc h, fun b => free_allocExtent hruns.toFreeRuns h, ?_⟩,
    ⟨fun ⟨err, h⟩ => freeExtent_eq_error hruns.toFreeRuns h, fun hbad => ?_⟩,
    ⟨fun ⟨err, h⟩ => allocExtent_eq_error hruns h, fun hbad => ?_⟩⟩
  · exact free_freeExtent hruns.toFreeRuns hhi hext h
  · exact freeExtent_allocExtent hruns hhi hlo hext h
  · cases h : freeExtent free extent with
    | error err => exact ⟨err, rfl⟩
    | ok free' =>
      rcases hbad with hzero | ⟨b, hin, hfree⟩
      · obtain ⟨-, -, -, -, -, -, hpos, -⟩ := freeExtent_spec hruns.toFreeRuns hhi hext h
        omega
      · exact absurd hfree (not_free_of_freeExtent hruns.toFreeRuns hhi hext h hin)
  · cases h : allocExtent free extent with
    | error err => exact ⟨err, rfl⟩
    | ok free' =>
      rcases hbad with hzero | ⟨b, hin, hused⟩
      · obtain ⟨-, -, -, -, -, hpos, -⟩ := allocExtent_spec h
        omega
      · exact absurd (free_of_allocExtent h hin) hused

theorem oneRun_merged : MergedRuns 1 100 [⟨5, 10⟩] :=
  ⟨freeRuns_singleton.mpr (by decide), by simp [Free, FreeExtent.Holds]⟩

theorem oneRun_edits : ∃ free', allocExtent [⟨5, 10⟩] ⟨8, 2⟩ = .ok free' ∧
    MergedRuns 1 100 free' ∧ freeExtent free' ⟨8, 2⟩ = .ok [⟨5, 10⟩] := by
  have hsplit : allocExtent [⟨5, 10⟩] ⟨8, 2⟩ = .ok [⟨5, 3⟩, ⟨10, 5⟩] := rfl
  obtain ⟨-, halloc, -⟩ := @free_space_edits 1 100 [⟨5, 10⟩] ⟨8, 2⟩ oneRun_merged (by decide)
    (by decide) (by decide)
  obtain ⟨hruns, -, hback⟩ := halloc _ hsplit
  exact ⟨_, hsplit, hruns, hback⟩

end

end FsXfs.Group
