import FsXfs.Group.Ledger
import Mathlib.Order.Bounds.Basic

/-!
# One operation's allocations

`group_write.rs`, `Allocations`: the groups an operation has opened, each read from the device once
and edited in memory from then on, so that a take sees every earlier one.
-/

namespace FsXfs.Group

set_option autoImplicit false

/-- The groups opened so far. -/
abbrev Allocations := ℕ → Option GroupAlloc

namespace GroupAlloc

def alignedRun (ed : GroupAlloc) (want align : ℕ) : Option FreeExtent :=
  (ed.byBlock.findSome? (alignedStart (max align 1) want)).map fun start => ⟨start, want⟩

def chosen (ed : GroupAlloc) : Edit → Option FreeExtent
  | .take want _ _ => ed.alignedRun want 1
  | .takeAligned want align _ _ => ed.alignedRun want align
  | .takeUpTo want _ _ => if ed.upTo want = 0 then none else ed.alignedRun (ed.upTo want) 1
  | .takeSettled want _ _ =>
    (firstCommonRun want ed.settled ed.byBlock).map fun start => ⟨start, want⟩
  | _ => none

-- blocks whose reverse mapping is refused are out of free space all the same
def refused (ed : GroupAlloc) (e : Edit) : GroupAlloc :=
  match ed.chosen e with
  | none => ed
  | some run => { ed with byBlock := (allocExtent ed.byBlock run).toOption.getD ed.byBlock }

end GroupAlloc

inductive Event where
  | handed (run : FreeExtent) (settled : Bool)
  | gave (run : FreeExtent)
  | other
  deriving DecidableEq

def Edit.isSettled : Edit → Bool
  | .takeSettled _ _ _ => true
  | _ => false

def eventOf (ed : GroupAlloc) : Edit → Event
  | .giveBack run => .gave run.extent
  | e => (ed.chosen e).elim .other fun run => .handed run e.isSettled

structure Moment where
  agno : ℕ
  free : List FreeExtent
  event : Event
  deriving DecidableEq

section

variable (crc32c : List UInt8 → ℕ) (sb : Superblock) (device : BlockRead)

def Allocations.group (allocs : Allocations) (agno : ℕ) : Except Error GroupAlloc :=
  match allocs agno with
  | some ed => .ok ed
  | none => openGroup crc32c sb device agno

def call (allocs : Allocations) (agno : ℕ) (e : Edit) : Except Error (Allocations × Moment) := do
  let ed ← allocs.group crc32c sb device agno
  match edit crc32c sb device ed e with
  | .ok (after, _) =>
    pure (Function.update allocs agno (some after), ⟨agno, ed.byBlock, eventOf ed e⟩)
  | .error _ =>
    pure (Function.update allocs agno (some (ed.refused e)), ⟨agno, ed.byBlock, .other⟩)

def operate : Allocations → List (ℕ × Edit) → Except Error (Allocations × List Moment)
  | allocs, [] => .ok (allocs, [])
  | allocs, (agno, e) :: calls => do
    let (allocs, moment) ← call crc32c sb device allocs agno e
    let (allocs, moments) ← operate allocs calls
    pure (allocs, moment :: moments)

end

/-! ## What a call does to free space -/

inductive Turn (ed : GroupAlloc) : Event → List FreeExtent → Prop
  | handed {run : FreeExtent} {settled : Bool} {free : List FreeExtent} :
      allocExtent ed.byBlock run = .ok free →
      (settled = true → ∀ b, run.Holds b → Free ed.settled b) → Turn ed (.handed run settled) free
  | gave {run : GroupRun} {free : List FreeExtent} :
      freeExtent ed.byBlock run.extent = .ok free → Turn ed (.gave run.extent) free
  | same : Turn ed .other ed.byBlock
  | lost {run : FreeExtent} {free : List FreeExtent} :
      allocExtent ed.byBlock run = .ok free → Turn ed .other free

/-- A run of each list holds the `want` blocks from `s` on. -/
def CommonAt (want : ℕ) (a b : List FreeExtent) (s : ℕ) : Prop :=
  ∃ x ∈ a, ∃ y ∈ b, max x.startblock y.startblock ≤ s ∧ s + want ≤ min x.end_ y.end_

section

variable {want s start lo lo' hi hi' : ℕ} {a b : List FreeExtent}

theorem firstCommonRun_common (h : firstCommonRun want a b = some start) :
    CommonAt want a b start := by
  induction a, b using firstCommonRun.induct want with
  | case1 b => exact absurd h (by simp [firstCommonRun])
  | case2 x a => exact absurd h (by simp [firstCommonRun])
  | case3 x a y b s hfits =>
    rw [firstCommonRun, if_pos hfits] at h
    cases h
    exact ⟨x, List.mem_cons_self, y, List.mem_cons_self, le_refl _, hfits⟩
  | case4 x a y b s hfits hle ih =>
    rw [firstCommonRun, if_neg hfits, if_pos hle] at h
    obtain ⟨x', hx, hcommon⟩ := ih h
    exact ⟨x', List.mem_cons_of_mem _ hx, hcommon⟩
  | case5 x a y b s hfits hle ih =>
    rw [firstCommonRun, if_neg hfits, if_neg hle] at h
    obtain ⟨x', hx, y', hy, hcommon⟩ := ih h
    exact ⟨x', hx, y', List.mem_cons_of_mem _ hy, hcommon⟩

theorem firstCommonRun_spec (h : firstCommonRun want a b = some start) :
    ∀ n, (⟨start, want⟩ : FreeExtent).Holds n → Free a n := by
  rintro n ⟨hlo, hlt⟩
  obtain ⟨x, hx, y, -, hstart, hend⟩ := firstCommonRun_common h
  change n < start + want at hlt
  exact ⟨x, hx, (le_max_left _ _).trans (hstart.trans hlo), by omega⟩

theorem firstCommonRun_le (hwant : 0 < want) (ha : a.Pairwise fun x y => x.end_ ≤ y.startblock)
    (hb : b.Pairwise fun x y => x.end_ ≤ y.startblock) (hcommon : CommonAt want a b s) :
    ∃ start ≤ s, firstCommonRun want a b = some start := by
  induction a, b using firstCommonRun.induct want with
  | case1 b => obtain ⟨x, ⟨⟩, -⟩ := hcommon
  | case2 x a => obtain ⟨-, -, y, ⟨⟩, -⟩ := hcommon
  | case3 x a y b start hfits =>
    rw [firstCommonRun, if_pos hfits]
    refine ⟨start, ?_, rfl⟩
    obtain ⟨x', hx, y', hy, hlo, -⟩ := hcommon
    have hxle : x.startblock ≤ x'.startblock := by
      rcases List.mem_cons.mp hx with rfl | hx
      · exact le_refl _
      · exact (Nat.le_add_right _ _).trans ((List.pairwise_cons.mp ha).1 x' hx)
    have hyle : y.startblock ≤ y'.startblock := by
      rcases List.mem_cons.mp hy with rfl | hy
      · exact le_refl _
      · exact (Nat.le_add_right _ _).trans ((List.pairwise_cons.mp hb).1 y' hy)
    exact (max_le_max hxle hyle).trans hlo
  | case4 x a y b start hfits hle ih =>
    rw [firstCommonRun, if_neg hfits, if_pos hle]
    obtain ⟨x', hx, y', hy, hlo, hhi⟩ := hcommon
    refine ih (List.pairwise_cons.mp ha).2 hb
      ⟨x', (List.mem_cons.mp hx).resolve_left ?_, y', hy, hlo, hhi⟩
    rintro rfl
    -- what `x` has in common is with `y`, and that is too short
    rcases List.mem_cons.mp hy with rfl | hy
    · exact hfits (by omega)
    · have hafter := (List.pairwise_cons.mp hb).1 y' hy
      omega
  | case5 x a y b start hfits hle ih =>
    rw [firstCommonRun, if_neg hfits, if_neg hle]
    obtain ⟨x', hx, y', hy, hlo, hhi⟩ := hcommon
    refine ih ha (List.pairwise_cons.mp hb).2
      ⟨x', hx, y', (List.mem_cons.mp hy).resolve_left ?_, hlo, hhi⟩
    rintro rfl
    rcases List.mem_cons.mp hx with rfl | hx
    · exact hfits (by omega)
    · have hafter := (List.pairwise_cons.mp ha).1 x' hx
      omega

theorem MergedRuns.run_of_free (h : MergedRuns lo hi a) (hwant : 0 < want)
    (hfree : ∀ n, s ≤ n → n < s + want → Free a n) :
    ∃ x ∈ a, x.startblock ≤ s ∧ s + want ≤ x.end_ := by
  obtain ⟨x, hx, hlo, hlt⟩ := hfree s (le_refl s) (Nat.lt_add_of_pos_right hwant)
  refine ⟨x, hx, hlo, ?_⟩
  by_contra hend
  exact h.merged x hx (hfree x.end_ hlt.le (by omega))

theorem commonAt_iff (ha : MergedRuns lo hi a) (hb : MergedRuns lo' hi' b) (hwant : 0 < want) :
    CommonAt want a b s ↔ ∀ n, s ≤ n → n < s + want → Free a n ∧ Free b n := by
  constructor
  · rintro ⟨x, hx, y, hy, hstart, hend⟩ n hlo hlt
    exact ⟨⟨x, hx, by omega, by omega⟩, ⟨y, hy, by omega, by omega⟩⟩
  · intro hfree
    obtain ⟨x, hx, hxlo, hxhi⟩ := ha.run_of_free hwant fun n hlo hlt => (hfree n hlo hlt).1
    obtain ⟨y, hy, hylo, hyhi⟩ := hb.run_of_free hwant fun n hlo hlt => (hfree n hlo hlt).2
    exact ⟨x, hx, y, hy, max_le hxlo hylo, le_min hxhi hyhi⟩

/-- A search for at least one block finds the lowest place that many blocks are free in both lists. -/
theorem firstCommonRun_least (ha : MergedRuns lo hi a) (hb : MergedRuns lo' hi' b)
    (hwant : 0 < want) :
    (∀ s, firstCommonRun want a b = some s ↔
      IsLeast {s | ∀ n, s ≤ n → n < s + want → Free a n ∧ Free b n} s) ∧
    (firstCommonRun want a b = none ↔ ¬∃ s, ∀ n, s ≤ n → n < s + want → Free a n ∧ Free b n) := by
  simp only [← commonAt_iff ha hb hwant]
  have hle := fun s => @firstCommonRun_le want s a b hwant ha.apart hb.apart
  cases hfound : firstCommonRun want a b with
  | none =>
    have hnone : ¬∃ s, CommonAt want a b s := by
      rintro ⟨s, hs⟩
      obtain ⟨start, -, hstart⟩ := hle s hs
      cases hfound.symm.trans hstart
    exact ⟨fun s => iff_of_false (by simp) fun hs => hnone ⟨s, hs.1⟩, iff_of_true rfl hnone⟩
  | some found =>
    have hleast : IsLeast {s | CommonAt want a b s} found := by
      refine ⟨firstCommonRun_common hfound, fun s hs => ?_⟩
      obtain ⟨start, hle, hstart⟩ := hle s hs
      obtain rfl := Option.some.inj (hfound.symm.trans hstart)
      exact hle
    refine ⟨fun s => ⟨?_, fun hs => congrArg some (hleast.unique hs)⟩,
      iff_of_false (by simp) (not_not.mpr ⟨found, hleast.1⟩)⟩
    rintro ⟨⟩
    exact hleast

theorem oneRun_common :
    IsLeast {s | ∀ n, s ≤ n → n < s + 2 → Free [⟨5, 10⟩] n ∧ Free [⟨5, 10⟩] n} 5 :=
  ((firstCommonRun_least oneRun_merged oneRun_merged (by decide)).1 5).mp
    (by simp [firstCommonRun, FreeExtent.end_])

/-- Where no blocks are wanted, none are free from block 0 on, and the search answers with a run. -/
theorem firstCommonRun_of_none : MergedRuns 1 100 [⟨5, 10⟩] ∧
    firstCommonRun 0 [⟨5, 10⟩] [⟨5, 10⟩] = some 5 ∧
    ∀ n, 0 ≤ n → n < 0 + 0 → Free [⟨5, 10⟩] n ∧ Free [⟨5, 10⟩] n :=
  ⟨oneRun_merged, by simp [firstCommonRun, FreeExtent.end_],
    fun n _ hlt => absurd hlt (Nat.not_lt_zero n)⟩

end

section

variable {crc32c : List UInt8 → ℕ} {sb : Superblock} {device : BlockRead} {ed ed' : GroupAlloc}
  {e : Edit} {moved : ℤ}

theorem takeAt_free {start want : ℕ} {owner : ℤ} {offset : ℕ} {extent : FreeExtent}
    (h : ed.takeAt start want owner offset = .ok (ed', extent)) :
    allocExtent ed.byBlock ⟨start, want⟩ = .ok ed'.byBlock ∧ ed'.settled = ed.settled := by
  obtain ⟨free, halloc, h⟩ := bind_eq_ok.mp h
  obtain ⟨mid, hput, h⟩ := bind_eq_ok.mp h
  cases h
  rcases putRmap_spec hput with ⟨-, rfl⟩ | ⟨records, records', blocks, -, -, rfl⟩
  · exact ⟨halloc, rfl⟩
  · exact ⟨halloc, rfl⟩

theorem takeAligned_free {want align : ℕ} {owner : ℤ} {offset : ℕ} {extent : FreeExtent}
    (h : ed.takeAligned crc32c sb device want align owner offset = .ok (ed', extent)) :
    ∃ run, ed.alignedRun want align = some run ∧ allocExtent ed.byBlock run = .ok ed'.byBlock ∧
      ed'.settled = ed.settled := by
  obtain ⟨start, hfind, h⟩ := takeAligned_eq_ok h
  refine ⟨⟨start, want⟩, ?_, takeAt_free h⟩
  rw [GroupAlloc.alignedRun, hfind]
  rfl

theorem turn_of_chosen {run : FreeExtent} {settled : Bool} {free : List FreeExtent}
    (halloc : allocExtent ed.byBlock run = .ok free) (hnot : settled = false) :
    Turn ed (.handed run settled) free :=
  .handed halloc fun h => absurd (hnot.symm.trans h) (by decide)

theorem takeAligned_turn {want : ℕ} (align : ℕ) {owner : ℤ} {offset : ℕ}
    (h : edit crc32c sb device ed (.takeAligned want align owner offset) = .ok (ed', moved)) :
    Turn ed (eventOf ed (.takeAligned want align owner offset)) ed'.byBlock ∧
      ed'.settled = ed.settled := by
  obtain ⟨⟨mid, extent⟩, htake, h⟩ := bind_eq_ok.mp h
  obtain ⟨rfl, -⟩ := Prod.mk.inj (Except.ok.inj h)
  obtain ⟨run, hrun, halloc, hsettled⟩ := takeAligned_free htake
  simp only [eventOf, GroupAlloc.chosen, hrun, Option.elim_some]
  exact ⟨turn_of_chosen halloc rfl, hsettled⟩

theorem Step.free_eq (h : Step ed e ed' moved) (hnames : e.names = none)
    (hgive : ∀ run, e ≠ .giveBack run) : ed'.byBlock = ed.byBlock ∧ ed'.settled = ed.settled := by
  cases h with
  | took hsome _ _ => exact absurd (hnames.symm.trans hsome) (by simp)
  | gave _ => exact absurd rfl (hgive _)
  | _ => exact ⟨rfl, rfl⟩

theorem edit_turn (h : edit crc32c sb device ed e = .ok (ed', moved)) :
    Turn ed (eventOf ed e) ed'.byBlock ∧ ed'.settled = ed.settled := by
  have hother : eventOf ed e = .other → e.names = none → (∀ run, e ≠ .giveBack run) →
      Turn ed (eventOf ed e) ed'.byBlock ∧ ed'.settled = ed.settled := by
    intro hevent hnames hgive
    obtain ⟨hfree, hsettled⟩ := (edit_step h).free_eq hnames hgive
    exact ⟨hevent ▸ hfree ▸ .same, hsettled⟩
  cases e with
  | take want owner offset => exact takeAligned_turn 1 h
  | takeAligned want align owner offset => exact takeAligned_turn align h
  | takeUpTo want owner offset =>
    obtain ⟨⟨mid, got⟩, htake, h⟩ := bind_eq_ok.mp h
    obtain ⟨rfl, -⟩ := Prod.mk.inj (Except.ok.inj h)
    simp only [eventOf, GroupAlloc.chosen]
    rcases takeUpTo_eq_ok htake with ⟨hzero, -, rfl⟩ | ⟨extent, hpos, -, htaken⟩
    · rw [if_pos hzero]
      exact ⟨.same, rfl⟩
    · obtain ⟨run, hrun, halloc, hsettled⟩ := takeAligned_free htaken
      rw [if_neg hpos, hrun]
      exact ⟨turn_of_chosen halloc rfl, hsettled⟩
  | takeSettled want owner offset =>
    obtain ⟨⟨mid, extent⟩, htake, h⟩ := bind_eq_ok.mp h
    obtain ⟨rfl, -⟩ := Prod.mk.inj (Except.ok.inj h)
    unfold GroupAlloc.takeSettled at htake
    split at htake
    · exact absurd htake (by simp)
    next start hcommon =>
      obtain ⟨halloc, hsettled⟩ := takeAt_free htake
      simp only [eventOf, GroupAlloc.chosen, hcommon, Option.map_some, Option.elim_some]
      exact ⟨.handed halloc fun _ => firstCommonRun_spec hcommon, hsettled⟩
  | giveBack run =>
    obtain ⟨mid, hgive, h⟩ := bind_eq_ok.mp h
    obtain ⟨rfl, -⟩ := Prod.mk.inj (Except.ok.inj h)
    obtain ⟨free, hfree, hgive⟩ := bind_eq_ok.mp hgive
    exact (Except.ok.inj hgive) ▸ ⟨.gave hfree, rfl⟩
  | forgetRmap record => exact hother rfl rfl (by simp)
  | rememberRmap record => exact hother rfl rfl (by simp)
  | rememberMovedRmap record => exact hother rfl rfl (by simp)
  | releaseShared startblock blockcount => exact hother rfl rfl (by simp)

theorem refused_turn (ed : GroupAlloc) (e : Edit) :
    Turn ed .other (ed.refused e).byBlock ∧ (ed.refused e).settled = ed.settled := by
  unfold GroupAlloc.refused
  split
  · exact ⟨.same, rfl⟩
  next run hrun =>
    cases halloc : allocExtent ed.byBlock run with
    | error e => exact ⟨.same, rfl⟩
    | ok free => exact ⟨.lost halloc, rfl⟩

theorem call_turn {allocs allocs' : Allocations} {agno : ℕ} {m : Moment}
    (h : call crc32c sb device allocs agno e = .ok (allocs', m)) :
    ∃ ed ed', allocs.group crc32c sb device agno = .ok ed ∧
      allocs' = Function.update allocs agno (some ed') ∧ m.agno = agno ∧ m.free = ed.byBlock ∧
      Turn ed m.event ed'.byBlock ∧ ed'.settled = ed.settled := by
  obtain ⟨ed, hgroup, h⟩ := bind_eq_ok.mp h
  split at h
  next after moved hedit =>
    cases h
    exact ⟨ed, after, hgroup, rfl, rfl, rfl, edit_turn hedit⟩
  next err hedit =>
    cases h
    exact ⟨ed, ed.refused e, hgroup, rfl, rfl, rfl, refused_turn ed e⟩

end

/-! ## Whole operations -/

def GivenBack (moments : List Moment) (agno b : ℕ) : Prop :=
  ∃ m ∈ moments, m.agno = agno ∧ ∃ run : FreeExtent, m.event = .gave run ∧ run.Holds b

theorem givenBack_append {past rest : List Moment} {agno b : ℕ} :
    GivenBack (past ++ rest) agno b ↔ GivenBack past agno b ∨ GivenBack rest agno b := by
  simp only [GivenBack, List.mem_append, or_and_right, exists_or]

theorem GivenBack.cons {moments : List Moment} {agno b : ℕ} (m : Moment)
    (h : GivenBack moments agno b) : GivenBack (m :: moments) agno b := by
  obtain ⟨x, hx, hrest⟩ := h
  exact ⟨x, List.mem_cons_of_mem _ hx, hrest⟩

section

variable {crc32c : List UInt8 → ℕ} {sb : Superblock} {device : BlockRead} {ed : GroupAlloc}
  {event : Event} {free : List FreeExtent} {b : ℕ}

theorem groupRun_end_le (run : GroupRun) : run.extent.end_ ≤ 2 ^ 32 - 1 := by
  have hfits := run.fits
  change run.startblock + run.blockcount ≤ _
  omega

theorem Turn.runs (h : Turn ed event free) (hruns : FreeRuns 0 (2 ^ 32 - 1) ed.byBlock) :
    FreeRuns 0 (2 ^ 32 - 1) free := by
  cases h with
  | handed halloc _ => exact hruns.alloc halloc
  | @gave run _ hgive =>
    exact hruns.giveBack (by decide) (groupRun_end_le run) hgive (Nat.zero_le _)
  | same => exact hruns
  | lost halloc => exact hruns.alloc halloc

theorem Turn.free_of (h : Turn ed event free) (hruns : FreeRuns 0 (2 ^ 32 - 1) ed.byBlock)
    (hb : Free free b) : Free ed.byBlock b ∨ ∃ run : FreeExtent, event = .gave run ∧ run.Holds b := by
  cases h with
  | handed halloc _ => exact .inl ((free_allocExtent hruns halloc).mp hb).1
  | @gave run _ hgive =>
    rcases (free_freeExtent hruns (by decide) (groupRun_end_le run) hgive).mp hb with hb | hb
    · exact .inl hb
    · exact .inr ⟨run.extent, rfl, hb⟩
  | same => exact .inl hb
  | lost halloc => exact .inl ((free_allocExtent hruns halloc).mp hb).1

/-- What holds of an open group after some calls. -/
structure Tracked (crc32c : List UInt8 → ℕ) (sb : Superblock) (device : BlockRead)
    (past : List Moment) (agno : ℕ) (ed : GroupAlloc) : Prop where
  runs : FreeRuns 0 (2 ^ 32 - 1) ed.byBlock
  settled : ∃ group, openGroup crc32c sb device agno = .ok group ∧ ed.settled = group.byBlock
  headers : ∀ b, Free ed.byBlock b → b ≤ lastHeaderBlock sb → GivenBack past agno b

variable {past moments : List Moment} {allocs allocs' : Allocations} {agno : ℕ}

theorem tracked_open (hsb : sb.Accepted) (h : openGroup crc32c sb device agno = .ok ed) :
    Tracked crc32c sb device past agno ed := by
  have hopened := openGroup_spec h
  refine ⟨(hopened.editor hsb.agblocks_lt).runs, ⟨ed, h, hopened.settled_eq⟩, fun b hb hle => ?_⟩
  obtain ⟨run, hmem, hin⟩ := hb
  have hlo := hopened.runs.lo_le run hmem
  have hstart := hin.1
  omega

variable {m : Moment} {calls : List (ℕ × Edit)}

theorem Tracked.turn {ed' : GroupAlloc} (h : Tracked crc32c sb device past agno ed)
    (hagno : m.agno = agno) (hturn : Turn ed m.event ed'.byBlock) (hsettled : ed'.settled = ed.settled) :
    Tracked crc32c sb device (past ++ [m]) agno ed' := by
  refine ⟨hturn.runs h.runs, hsettled ▸ h.settled, fun b hb hle => ?_⟩
  rw [givenBack_append]
  rcases hturn.free_of h.runs hb with hb | ⟨run, hevent, hin⟩
  · exact .inl (h.headers b hb hle)
  · exact .inr ⟨m, List.mem_singleton_self m, hagno, run, hevent, hin⟩

theorem Tracked.later (m : Moment) (h : Tracked crc32c sb device past agno ed) :
    Tracked crc32c sb device (past ++ [m]) agno ed :=
  ⟨h.runs, h.settled, fun b hb hle => givenBack_append.mpr (.inl (h.headers b hb hle))⟩

def Tracks (crc32c : List UInt8 → ℕ) (sb : Superblock) (device : BlockRead) (past : List Moment)
    (allocs : Allocations) : Prop :=
  ∀ agno ed, allocs agno = some ed → Tracked crc32c sb device past agno ed

theorem Tracks.group (hsb : sb.Accepted) (h : Tracks crc32c sb device past allocs)
    (hgroup : allocs.group crc32c sb device agno = .ok ed) :
    Tracked crc32c sb device past agno ed := by
  unfold Allocations.group at hgroup
  split at hgroup
  next hsome => exact h agno _ (Except.ok.inj hgroup ▸ hsome)
  next hnone => exact tracked_open hsb hgroup

theorem Tracks.call {e : Edit} (hsb : sb.Accepted)
    (h : Tracks crc32c sb device past allocs)
    (hcall : Group.call crc32c sb device allocs agno e = .ok (allocs', m)) :
    Tracks crc32c sb device (past ++ [m]) allocs' := by
  obtain ⟨ed, ed', hgroup, rfl, hagno, -, hturn, hsettled⟩ := call_turn hcall
  intro other ed'' hother
  by_cases heq : other = agno
  · subst heq
    rw [Function.update_self] at hother
    exact Option.some.inj hother ▸ (h.group hsb hgroup).turn hagno hturn hsettled
  · rw [Function.update_of_ne heq] at hother
    exact (h other ed'' hother).later m

/-- Blocks handed out are free at the time, on the headers only where they were given back, and for
`take_settled` free since before the group was opened. -/
def Fits (crc32c : List UInt8 → ℕ) (sb : Superblock) (device : BlockRead) (past : List Moment)
    (m : Moment) : Prop :=
  ∀ run settled, m.event = .handed run settled → ∀ b, run.Holds b →
    Free m.free b ∧ (b ≤ lastHeaderBlock sb → GivenBack past m.agno b) ∧
      (settled = true → ∃ group, openGroup crc32c sb device m.agno = .ok group ∧ Free group.byBlock b)

section

variable (hsb : sb.Accepted) (h : Tracks crc32c sb device past allocs)

include hsb h

theorem Tracks.fits {e : Edit}
    (hcall : Group.call crc32c sb device allocs agno e = .ok (allocs', m)) :
    Fits crc32c sb device past m := by
  obtain ⟨ed, ed', hgroup, -, rfl, hfree, hturn, -⟩ := call_turn hcall
  have htracked := h.group hsb hgroup
  intro run settled hevent b hb
  rw [hevent] at hturn
  cases hturn with
  | handed halloc hcommon =>
    have hnow := free_of_allocExtent halloc hb
    refine ⟨hfree ▸ hnow, htracked.headers b hnow, fun hset => ?_⟩
    obtain ⟨group, hopen, hsettled⟩ := htracked.settled
    exact ⟨group, hopen, hsettled ▸ hcommon hset b hb⟩

/-- An operation taken apart at one of its calls. -/
theorem operate_split (hrun : operate crc32c sb device allocs calls = .ok (allocs', moments))
    {before after : List Moment} (hsplit : moments = before ++ m :: after) :
    ∃ here next c rest, Tracks crc32c sb device (past ++ before) here ∧
      Group.call crc32c sb device here (Prod.fst c) (Prod.snd c) = .ok (next, m) ∧
      operate crc32c sb device next rest = .ok (allocs', after) := by
  induction calls generalizing past allocs moments before with
  | nil =>
    obtain ⟨-, rfl⟩ := Prod.mk.inj (Except.ok.inj hrun)
    exact absurd hsplit (by simp)
  | cons c calls ih =>
    obtain ⟨⟨mid, first⟩, hcall, hrun⟩ := bind_eq_ok.mp hrun
    obtain ⟨⟨last, rest⟩, hrest, hrun⟩ := bind_eq_ok.mp hrun
    obtain ⟨rfl, rfl⟩ := Prod.mk.inj (Except.ok.inj hrun)
    cases before with
    | nil =>
      obtain ⟨rfl, rfl⟩ := List.cons.inj hsplit
      exact ⟨allocs, mid, c, calls, by rwa [List.append_nil], hcall, hrest⟩
    | cons x before =>
      obtain ⟨rfl, htail⟩ := List.cons.inj hsplit
      have hlater := ih (h.call hsb hcall) hrest htail
      rwa [List.append_assoc] at hlater

theorem givenBack_operate (hopen : allocs agno = some ed) (hnot : ¬Free ed.byBlock b)
    (hrun : operate crc32c sb device allocs calls = .ok (allocs', moments))
    {before after : List Moment} {run : FreeExtent} {settled : Bool}
    (hsplit : moments = before ++ m :: after) (hagno : m.agno = agno)
    (hevent : m.event = .handed run settled) (hb : run.Holds b) : GivenBack before agno b := by
  induction calls generalizing past allocs moments before ed with
  | nil =>
    obtain ⟨-, rfl⟩ := Prod.mk.inj (Except.ok.inj hrun)
    exact absurd hsplit (by simp)
  | cons c calls ih =>
    obtain ⟨⟨mid, first⟩, hcall, hrun⟩ := bind_eq_ok.mp hrun
    obtain ⟨⟨last, rest⟩, hrest, hrun⟩ := bind_eq_ok.mp hrun
    obtain ⟨rfl, rfl⟩ := Prod.mk.inj (Except.ok.inj hrun)
    obtain ⟨ed₁, ed₂, hgroup, hmid, hfirst, hfree, hturn, -⟩ := call_turn hcall
    have hnext := h.call hsb hcall
    cases before with
    | nil =>
      obtain ⟨rfl, -⟩ := List.cons.inj hsplit
      have hnow := (h.fits hsb hcall run settled hevent b hb).1
      rw [hfirst] at hagno
      subst hagno
      rw [Allocations.group, hopen] at hgroup
      rw [hfree, ← Except.ok.inj hgroup] at hnow
      exact absurd hnow hnot
    | cons x before =>
      obtain ⟨rfl, htail⟩ := List.cons.inj hsplit
      by_cases heq : agno = c.1
      · subst heq
        rw [Allocations.group, hopen] at hgroup
        obtain rfl := Except.ok.inj hgroup
        by_cases hfreed : Free ed₂.byBlock b
        · rcases hturn.free_of (h _ _ hopen).runs hfreed with hold | ⟨given, hgave, hin⟩
          · exact absurd hold hnot
          · exact ⟨first, List.mem_cons_self, hfirst, given, hgave, hin⟩
        · have hopen' : mid c.1 = some ed₂ := by rw [hmid, Function.update_self]
          exact (ih hnext hopen' hfreed hrest htail).cons first
      · have hopen' : mid agno = some ed := by rw [hmid, Function.update_of_ne heq, hopen]
        exact (ih hnext hopen' hnot hrest htail).cons first

end

/-- In every operation, a run is handed out of blocks that are free, apart from the headers and
apart from the runs handed out before, unless its blocks were given back in between. -/
theorem handedOut_operate (hsb : sb.Accepted) {calls : List (ℕ × Edit)}
    (hrun : operate crc32c sb device (fun _ => none) calls = .ok (allocs', moments))
    {before after : List Moment} {m : Moment} (hsplit : moments = before ++ m :: after) :
    Fits crc32c sb device before m ∧
      ∀ mid m' later run settled run' settled' b, after = mid ++ m' :: later → m'.agno = m.agno →
        m.event = .handed run settled → m'.event = .handed run' settled' →
        run.Holds b → run'.Holds b → GivenBack mid m.agno b := by
  have hstart : Tracks crc32c sb device [] (fun _ => none) := fun _ _ h => absurd h (by simp)
  obtain ⟨here, next, c, rest, hhere, hcall, hrest⟩ := operate_split hsb hstart hrun hsplit
  refine ⟨hhere.fits hsb hcall, ?_⟩
  intro mid m' later run settled run' settled' b hafter hagno hevent hevent' hb hb'
  subst hafter
  obtain ⟨ed, ed', hgroup, hmid, hfirst, -, hturn, -⟩ := call_turn hcall
  have hruns := (hhere.group hsb hgroup).runs
  rw [hevent] at hturn
  cases hturn with
  | handed halloc _ =>
    have hnot : ¬Free ed'.byBlock b := fun hfree =>
      ((free_allocExtent hruns halloc).mp hfree).2 hb
    have hopen : next m.agno = some ed' := by rw [hmid, hfirst, Function.update_self]
    exact givenBack_operate hsb (hhere.call hsb hcall) hopen hnot hrest rfl hagno hevent' hb'

end

def sampleMoments (device : BlockRead) (calls : List (ℕ × Edit)) : List Moment :=
  match operate zeroCrc smallBlocks device (fun _ => none) calls with
  | .error _ => []
  | .ok (_, moments) => moments

theorem sampleMoments_spec {device : BlockRead} {calls : List (ℕ × Edit)} {moments : List Moment}
    (h : sampleMoments device calls = moments) (hne : moments ≠ []) :
    ∃ allocs, operate zeroCrc smallBlocks device (fun _ => none) calls = .ok (allocs, moments) := by
  unfold sampleMoments at h
  split at h
  · exact absurd h.symm hne
  next allocs found hrun => exact ⟨allocs, h ▸ hrun⟩

def takenAgain : List (ℕ × Edit) :=
  [(0, .take 1 131 0), (0, .giveBack ⟨100, 1, by decide⟩), (0, .takeSettled 1 131 0)]

theorem takenAgain_moments : sampleMoments calmDevice takenAgain =
    [⟨0, [⟨100, 50⟩], .handed ⟨100, 1⟩ false⟩, ⟨0, [⟨101, 49⟩], .gave ⟨100, 1⟩⟩,
      ⟨0, [⟨100, 50⟩], .handed ⟨100, 1⟩ true⟩] := by
  decide +kernel

def headerTaken : List (ℕ × Edit) :=
  [(0, .giveBack ⟨0, 1, by decide⟩), (0, .take 1 131 0)]

theorem headerTaken_moments : sampleMoments calmDevice headerTaken =
    [⟨0, [⟨100, 50⟩], .gave ⟨0, 1⟩⟩, ⟨0, [⟨0, 1⟩, ⟨100, 50⟩], .handed ⟨0, 1⟩ false⟩] := by
  decide +kernel

theorem handedOut_takenAgain : ∃ allocs,
    operate zeroCrc smallBlocks calmDevice (fun _ => none) takenAgain =
        .ok (allocs, sampleMoments calmDevice takenAgain) ∧
      Fits zeroCrc smallBlocks calmDevice [] ⟨0, [⟨100, 50⟩], .handed ⟨100, 1⟩ false⟩ ∧
      GivenBack [⟨0, [⟨101, 49⟩], .gave ⟨100, 1⟩⟩] 0 100 := by
  obtain ⟨allocs, hrun⟩ := sampleMoments_spec takenAgain_moments (by simp)
  obtain ⟨hfits, hapart⟩ := handedOut_operate smallBlocks_accepted hrun
    (show _ = [] ++ (⟨0, [⟨100, 50⟩], .handed ⟨100, 1⟩ false⟩ : Moment) :: [_, _] from rfl)
  exact ⟨allocs, takenAgain_moments ▸ hrun, hfits,
    hapart [⟨0, [⟨101, 49⟩], .gave ⟨100, 1⟩⟩] ⟨0, [⟨100, 50⟩], .handed ⟨100, 1⟩ true⟩ [] _ _ _ _ 100
      rfl rfl rfl rfl ⟨by decide, by decide⟩ ⟨by decide, by decide⟩⟩

/-- The block `take_settled` hands out was not free at the give-back before it; and blocks of the
headers are handed out once they have been given back. -/
theorem handedOut_not_settled :
    (∃ allocs before m, operate zeroCrc smallBlocks calmDevice (fun _ => none) takenAgain =
        .ok (allocs, before ++ [m]) ∧ m.event = .handed ⟨100, 1⟩ true ∧
      ∃ m₀ ∈ before, m₀.agno = m.agno ∧ ¬Free m₀.free 100) ∧
    ∃ allocs before m, operate zeroCrc smallBlocks calmDevice (fun _ => none) headerTaken =
        .ok (allocs, before ++ [m]) ∧ m.event = .handed ⟨0, 1⟩ false ∧
      (⟨0, 1⟩ : FreeExtent).Holds 0 ∧ 0 ≤ lastHeaderBlock smallBlocks := by
  obtain ⟨again, hagain⟩ := sampleMoments_spec takenAgain_moments (by simp)
  obtain ⟨header, hheader⟩ := sampleMoments_spec headerTaken_moments (by simp)
  refine ⟨⟨again, [⟨0, [⟨100, 50⟩], .handed ⟨100, 1⟩ false⟩, ⟨0, [⟨101, 49⟩], .gave ⟨100, 1⟩⟩], _,
    hagain, rfl, ⟨0, [⟨101, 49⟩], .gave ⟨100, 1⟩⟩, by simp, rfl, ?_⟩,
    ⟨header, [⟨0, [⟨100, 50⟩], .gave ⟨0, 1⟩⟩], _, hheader, rfl, by decide, by decide⟩⟩
  simp [Free, FreeExtent.Holds]

end FsXfs.Group
