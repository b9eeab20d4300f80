import FsXfs.Log.Parse

/-!
# The newest record, from the cycle numbers

The two searches of `log.rs` over the blocks of the log as bytes. `scanWholeRing` reads every
block and keeps the header with the greatest sequence number. `newestRecordByCycle` looks for the
place where the cycle stamped on the blocks changes, confirms the stamps of a window behind it and
takes the last header in that window; where the ring does not have the shape it relies on it
returns `none`, and `scanForNewestRecord` scans.

`Left` is a ring as appending leaves it: each record starts where the one before it ended, goes
round past the end of the ring, and stamps each of its blocks with the cycle of its place.
-/

namespace FsXfs.Log.Search

open Bytes

set_option autoImplicit false

/-! ## What a block says -/

def cycleOf (block : List UInt8) : ℕ :=
  if beValue (slice block 0 4) = xlogHeaderMagic then
    beValue (slice block 4 4)
  else
    beValue (slice block 0 4)

def isHeader (uuid block : List UInt8) : Bool :=
  decide (beValue (slice block 0 4) = xlogHeaderMagic ∧ slice block 304 16 = uuid)

def lsnAt (block : List UInt8) : ℕ :=
  beValue (slice block 16 8)

def lenAt (block : List UInt8) : ℕ :=
  beValue (slice block 12 4)

structure Record where
  bb : ℕ
  lsn : ℕ
  numLogops : ℕ
  len : ℕ
  headerBlocks : ℕ
  header : List UInt8
  deriving DecidableEq

def recordAt (bb : ℕ) (block : List UInt8) : Record where
  bb := bb
  lsn := lsnAt block
  numLogops := beValue (slice block 40 4)
  len := lenAt block
  headerBlocks := headerBlocksOf block
  header := block

/-! ## The full scan -/

section

variable (uuid : List UInt8) (ring : ℕ → List UInt8)

def scanStep (newest : Option Record) (bb : ℕ) : Option Record :=
  if isHeader uuid (ring bb) then
    match newest with
    | some n => if lsnAt (ring bb) ≤ n.lsn then newest else some (recordAt bb (ring bb))
    | none => some (recordAt bb (ring bb))
  else newest

def scanWholeRing (total : ℕ) : Option Record :=
  (List.range total).foldl (scanStep uuid ring) none

/-! ## The search by cycle -/

def headWindowBlocks : ℕ := 8 * 256 * 1024 / 512

def boundary (first last lo hi : ℕ) : Option ℕ :=
  if 1 < hi - lo then
    let mid := lo + (hi - lo) / 2
    if cycleOf (ring mid) = last then boundary first last lo mid
    else if cycleOf (ring mid) = first then boundary first last mid hi
    else none
  else some hi
termination_by hi - lo

def headByCycle (total : ℕ) : Option (ℕ × ℕ × Option ℕ) :=
  let first := cycleOf (ring 0)
  let last := cycleOf (ring (total - 1))
  if first = 0 then none
  else if last = first then some (first, total, none)
  else if last = 0 ∨ first - 1 = last then
    (boundary ring first last 0 (total - 1)).map fun head =>
      (first, head, if last ≠ 0 then some last else none)
  else none

def readRun (start count expect : ℕ) : Option (List (ℕ × List UInt8)) :=
  if ∀ bb ∈ List.range' start count, cycleOf (ring bb) = expect then
    some ((List.range' start count).map fun bb => (bb, ring bb))
  else none

def readWindow (total first head : ℕ) (older : Option ℕ) : Option (List (ℕ × List UInt8)) :=
  let window := min headWindowBlocks total
  if head < window then do
    let wrapped ← match older with
      | some older => readRun ring (total - (window - head)) (window - head) older
      | none => some []
    let run ← readRun ring 0 head first
    some (wrapped ++ run)
  else
    readRun ring (head - window) window first

def endOf (total bb : ℕ) (header : List UInt8) : ℕ :=
  let stop := bb + headerBlocksOf header + divCeil (lenAt header) 512
  if total < stop then stop - total else stop

def newestRecordByCycle (total : ℕ) : Option Record :=
  if total < 2 then none
  else do
    let (first, head, older) ← headByCycle ring total
    let blocks ← readWindow ring total first head older
    let (bb, header) ← blocks.reverse.find? fun b => isHeader uuid b.2
    if endOf total bb header = head then some (recordAt bb header) else none

def scanForNewestRecord (total : ℕ) : Option Record :=
  match newestRecordByCycle uuid ring total with
  | some found => some found
  | none => scanWholeRing uuid ring total

end

/-! ## Rings left by appending -/

def cell (total b k : ℕ) : ℕ :=
  if b + k < total then b + k else b + k - total

def cycleAt (total b c k : ℕ) : ℕ :=
  if b + k < total then c else c + 1

/-- A header that names the cycle it was written in and the block it lies at. -/
def Names (block : List UInt8) (cycle bb : ℕ) : Prop :=
  lsnAt block / 2 ^ 32 = cycle ∧ lsnAt block % 2 ^ 32 = bb

/-- A record of `n` blocks appended at block `b` of cycle `c`: every block of it is stamped with
its cycle, every header among them names its own cycle and block, the first is a header that
describes the record, and the rest of the ring is left alone. -/
structure Appends (uuid : List UInt8) (total b c n : ℕ) (ring ring' : ℕ → List UInt8) : Prop where
  pos : 0 < n
  fits : n ≤ total
  header : isHeader uuid (ring' b) = true
  length : headerBlocksOf (ring' b) + divCeil (lenAt (ring' b)) 512 = n
  stamped : ∀ k < n, cycleOf (ring' (cell total b k)) = cycleAt total b c k
  names : ∀ k < n, isHeader uuid (ring' (cell total b k)) = true →
    Names (ring' (cell total b k)) (cycleAt total b c k) (cell total b k)
  frame : ∀ bb < total, (∀ k < n, bb ≠ cell total b k) → ring' bb = ring bb

/-- Rings as records leave them, with the place and length of each record, the newest first, and
the block and cycle the next one starts at. -/
inductive Left (uuid : List UInt8) (total : ℕ) :
    List (ℕ × ℕ) → (ℕ → List UInt8) → ℕ → ℕ → Prop where
  | blank {ring : ℕ → List UInt8} (hblank : ∀ bb < total, beValue (slice (ring bb) 0 4) = 0) :
      Left uuid total [] ring 0 1
  | append {records : List (ℕ × ℕ)} {ring ring' : ℕ → List UInt8} {b c n : ℕ}
      (hleft : Left uuid total records ring b c) (happ : Appends uuid total b c n ring ring') :
      Left uuid total ((b, n) :: records) ring' (cell total b n) (cycleAt total b c n)

/-! ## The shape of such a ring -/

structure Shape (uuid : List UInt8) (total : ℕ) (ring : ℕ → List UInt8) (b c : ℕ) : Prop where
  cycle_pos : 0 < c
  head_le : b < total ∨ b = 0
  cycle : ∀ bb < total, cycleOf (ring bb) = if bb < b then c else c - 1
  names : ∀ bb < total, isHeader uuid (ring bb) = true →
    Names (ring bb) (if bb < b then c else c - 1) bb

variable {ring : ℕ → List UInt8} {total c n b bb : ℕ} {uuid : List UInt8}

theorem Shape.blank (uuid : List UInt8)
    (hblank : ∀ bb < total, beValue (slice (ring bb) 0 4) = 0) : Shape uuid total ring 0 1 where
  cycle_pos := Nat.one_pos
  head_le := .inr rfl
  cycle bb hbb := by
    simp [cycleOf, hblank bb hbb, xlogHeaderMagic]
  names bb hbb hheader := by
    simp [isHeader, hblank bb hbb, xlogHeaderMagic] at hheader

theorem covered_or_kept (total b n bb : ℕ) :
    (∃ k < n, bb = cell total b k) ∨ ∀ k < n, bb ≠ cell total b k := by
  by_cases h : ∃ k < n, bb = cell total b k
  · exact .inl h
  · exact .inr fun k hk heq => h ⟨k, hk, heq⟩

variable {total b k : ℕ} {ring ring' : ℕ → List UInt8}

theorem cycleAt_of_covered {c n : ℕ} (hn : n ≤ total) (hk : k < n) :
    cycleAt total b c k =
      if cell total b k < cell total b n then cycleAt total b c n else cycleAt total b c n - 1 := by
  unfold cycleAt cell
  by_cases hin : b + n < total
  · have hk' : b + k < total := by omega
    rw [if_pos hk', if_pos hk', if_pos hin, if_pos hin, if_pos (by omega)]
  by_cases hk' : b + k < total
  · rw [if_pos hk', if_pos hk', if_neg hin, if_neg hin, if_neg (by omega), Nat.add_sub_cancel]
  · rw [if_neg hk', if_neg hk', if_neg hin, if_neg hin, if_pos (by omega)]

theorem cycle_of_kept (hb : b < total) (hn : 0 < n) (hbb : bb < total)
    (hkept : ∀ k < n, bb ≠ cell total b k) :
    (if bb < b then c else c - 1) =
      if bb < cell total b n then cycleAt total b c n else cycleAt total b c n - 1 := by
  have hlow : b ≤ bb → b + n ≤ bb := by
    intro hle
    by_contra hlt
    refine hkept (bb - b) (by omega) ?_
    rw [cell, if_pos (by omega)]
    omega
  have hhigh : total ≤ b + n → b + n - total ≤ bb := by
    intro hwrap
    by_contra hlt
    refine hkept (bb + total - b) (by omega) ?_
    rw [cell, if_neg (by omega)]
    omega
  unfold cycleAt cell
  by_cases hin : b + n < total
  · rw [if_pos hin, if_pos hin]
    by_cases hbb' : bb < b
    · rw [if_pos hbb', if_pos (by omega)]
    · rw [if_neg hbb', if_neg (by omega)]
  · rw [if_neg hin, if_neg hin, if_pos (by omega), if_neg (by omega), Nat.add_sub_cancel]

theorem Shape.append (hshape : Shape uuid total ring b c)
    (happ : Appends uuid total b c n ring ring') :
    Shape uuid total ring' (cell total b n) (cycleAt total b c n) := by
  have hpos := happ.pos
  have hfits := happ.fits
  have hb : b < total := by
    rcases hshape.head_le with h | h <;> omega
  refine ⟨?_, .inl ?_, ?_, ?_⟩
  · have := hshape.cycle_pos
    unfold cycleAt
    split <;> omega
  · unfold cell
    split <;> omega
  · intro bb hbb
    rcases covered_or_kept total b n bb with ⟨k, hk, rfl⟩ | hkept
    · rw [happ.stamped k hk, cycleAt_of_covered hfits hk]
    · rw [happ.frame bb hbb hkept, hshape.cycle bb hbb, cycle_of_kept hb hpos hbb hkept]
  · intro bb hbb hheader
    rcases covered_or_kept total b n bb with ⟨k, hk, rfl⟩ | hkept
    · rw [← cycleAt_of_covered hfits hk]
      exact happ.names k hk hheader
    · rw [happ.frame bb hbb hkept] at hheader ⊢
      rw [← cycle_of_kept hb hpos hbb hkept]
      exact hshape.names bb hbb hheader

theorem Left.shape {records : List (ℕ × ℕ)} (h : Left uuid total records ring b c) :
    Shape uuid total ring b c := by
  induction h with
  | blank hblank => exact Shape.blank uuid hblank
  | append _ happ ih => exact ih.append happ

/-! ## A record the driver writes -/

def writeBytes (ring : ℕ → List UInt8) (b n : ℕ) (bytes : List UInt8) : ℕ → List UInt8 := fun bb =>
  if b ≤ bb ∧ bb < b + n then slice bytes ((bb - b) * 512) 512 else ring bb

section

variable (uuid : List UInt8) (r : LogRecord) (cycleData : List UInt8) (crc : ℕ)

theorem header_magic :
    beValue (slice (headerBytes uuid r cycleData crc) 0 4) = xlogHeaderMagic := by
  rw [headerBytes_eq, slice_append_left (by rw [headerFront_length]; decide)]
  exact (beValue_beBytes 4 xlogHeaderMagic).trans (by decide)

theorem header_cycle :
    beValue (slice (headerBytes uuid r cycleData crc) 4 4) = r.cycle % 256 ^ 4 := by
  rw [headerBytes_eq, slice_append_left (by rw [headerFront_length]; decide)]
  exact beValue_beBytes 4 r.cycle

theorem header_lsn : lsnAt (headerBytes uuid r cycleData crc) = r.lsn % 256 ^ 8 := by
  rw [lsnAt, headerBytes_eq, slice_append_left (by rw [headerFront_length]; decide)]
  exact beValue_beBytes 8 r.lsn

theorem header_uuid : slice (headerBytes uuid r cycleData crc) 304 16 = uuid.takeD 16 0 := by
  rw [slice_headerBytes _ _ _ _ (by decide),
    slice_append_right (by rw [List.takeD_length]; decide), List.takeD_length,
    slice_append_right (by rw [beBytes_length]), beBytes_length,
    slice_append_left (by rw [List.takeD_length]), slice_all (List.takeD_length ..)]

theorem stampedPayload_word (hk : k < divCeil r.len 512) :
    slice (slice (stampedPayload r) (k * 512) 512) 0 4 = beBytes 4 r.cycle := by
  refine List.ext_getElem? fun j => ?_
  rw [getElem?_slice]
  by_cases hj : j < 4
  · have hdiv : (k * 512 + j) / 512 = k := by omega
    have hmod : (k * 512 + j) % 512 = j := by omega
    rw [if_pos hj, getElem?_slice, if_pos (by omega), Nat.zero_add, stampedPayload,
      getElem?_flatMap_range (by decide) (fun i hi => stampedPayload_block hi), if_pos (by omega),
      hdiv, hmod, List.getElem?_append_left (by rw [beBytes_length]; exact hj)]
  · rw [if_neg hj, List.getElem?_eq_none (by rw [beBytes_length]; omega)]

end

/-- A data block stamped with a cycle that is not the header's magic number reads back as that
cycle and not as a header. -/
theorem cycleOf_of_stamped (uuid : List UInt8) {block : List UInt8}
    (h : beValue (slice block 0 4) = c) (hc : c ≠ xlogHeaderMagic) :
    cycleOf block = c ∧ isHeader uuid block = false := by
  refine ⟨?_, ?_⟩
  · rw [cycleOf, h, if_neg hc]
  · simp [isHeader, h, hc]

theorem writeBytes_header (uuid : List UInt8) (r : LogRecord) (crc : ℕ) (ring : ℕ → List UInt8) :
    writeBytes ring r.block r.blocks (headerBytes uuid r (displacedWords r) crc ++ stampedPayload r)
      r.block = headerBytes uuid r (displacedWords r) crc := by
  have hpos : 0 < r.blocks := r.one_le_blocks
  rw [writeBytes, if_pos ⟨le_rfl, by omega⟩, Nat.sub_self, Nat.zero_mul,
    slice_append_left (by rw [headerBytes_length]), slice_all (headerBytes_length ..)]

theorem writeBytes_stamped (uuid : List UInt8) {r : LogRecord} (crc : ℕ) (ring : ℕ → List UInt8)
    (hcycle : r.cycle < 2 ^ 32) (hblocks : r.blocks = 1 + divCeil r.len 512) {k : ℕ} (hk : 0 < k)
    (hlt : k < r.blocks) :
    beValue (slice (writeBytes ring r.block r.blocks
      (headerBytes uuid r (displacedWords r) crc ++ stampedPayload r) (r.block + k)) 0 4) = r.cycle := by
  have hoff : k * 512 - 512 = (k - 1) * 512 := by omega
  rw [writeBytes, if_pos ⟨by omega, by omega⟩, Nat.add_sub_cancel_left,
    slice_append_right (by rw [headerBytes_length]; omega), headerBytes_length, hoff,
    stampedPayload_word r (by omega)]
  exact beValue_beBytes_of_lt (by omega)

theorem appends_writeBytes {crc32c : List UInt8 → ℕ} {uuid bytes : List UInt8} {r : LogRecord}
    (total : ℕ) (ring : ℕ → List UInt8) (hok : encodeRecord crc32c uuid r = .ok bytes)
    (huuid : uuid.length = 16) (hsize : r.iclogSize ≤ xlogHeaderCycleSize)
    (hblock : r.block < 2 ^ 32) (hcycle : r.cycle < 2 ^ 32) (hmagic : r.cycle ≠ xlogHeaderMagic)
    (hfits : r.block + r.blocks ≤ total) :
    Appends uuid total r.block r.cycle r.blocks ring (writeBytes ring r.block r.blocks bytes) ∧
      ∀ k, 0 < k → k < r.blocks →
        isHeader uuid (writeBytes ring r.block r.blocks bytes (r.block + k)) = false := by
  have hwords : divCeil r.len 512 ≤ 64 := by
    by_contra hmany
    rw [encodeRecord, if_pos (Nat.not_le.mp hmany)] at hok
    cases hok
  rw [encodeRecord_eq hwords] at hok
  cases hok
  generalize hcrc : crc32c _ = crc
  have hblocks : r.blocks = 1 + divCeil r.len 512 := by
    rw [LogRecord.blocks, LogRecord.headerBlocks, if_pos hsize]
  have hlen : r.len < 2 ^ 32 := by
    have := @le_divCeil_mul r.len 512 (by decide)
    omega
  have hheader := writeBytes_header uuid r crc ring
  have hdata : ∀ k, 0 < k → k < r.blocks → _ := fun k hk hlt =>
    writeBytes_stamped uuid crc ring hcycle hblocks hk hlt
  have hcell : ∀ k < r.blocks, cell total r.block k = r.block + k := fun k hk =>
    if_pos (by omega)
  have hat : ∀ k < r.blocks, cycleAt total r.block r.cycle k = r.cycle := fun k hk =>
    if_pos (by omega)
  refine ⟨⟨r.one_le_blocks, by omega, ?_, ?_, ?_, ?_, ?_⟩,
    fun k hkpos hk => (cycleOf_of_stamped uuid (hdata k hkpos hk) hmagic).2⟩
  · rw [hheader, isHeader, header_magic, header_uuid, takeD_eq_append (by omega), huuid]
    simp
  · have hsmall : r.iclogSize % 256 ^ 4 = r.iclogSize := Nat.mod_eq_of_lt (by
      simp only [xlogHeaderCycleSize] at hsize
      omega)
    have hone : headerBlocksOf (headerBytes uuid r (displacedWords r) crc) = 1 := by
      unfold headerBlocksOf
      simp only [header_version, header_size, hsmall, hsize, if_true]
      split <;> rfl
    rw [hheader, hone, lenAt, header_len, Nat.mod_eq_of_lt (by omega), hblocks]
  · intro k hk
    rw [hcell k hk, hat k hk]
    rcases Nat.eq_zero_or_pos k with rfl | hkpos
    · rw [Nat.add_zero, hheader, cycleOf, header_magic, if_pos rfl, header_cycle,
        Nat.mod_eq_of_lt (by omega)]
    · exact (cycleOf_of_stamped uuid (hdata k hkpos hk) hmagic).1
  · intro k hk hreads
    rw [hcell k hk] at hreads ⊢
    rw [hat k hk]
    rcases Nat.eq_zero_or_pos k with rfl | hkpos
    · rw [Nat.add_zero, Names, hheader, header_lsn, LogRecord.lsn]
      omega
    · rw [(cycleOf_of_stamped uuid (hdata k hkpos hk) hmagic).2] at hreads
      cases hreads
  · intro bb _ hkept
    rw [writeBytes, if_neg]
    rintro ⟨hle, hlt⟩
    refine hkept (bb - r.block) (by omega) ?_
    rw [hcell _ (by omega)]
    omega

/-! ## Where the cycle changes -/

theorem boundary_eq {first last lo hi : ℕ} (hne : first ≠ last) (hlo : lo < b) (hhi : b ≤ hi)
    (hcycle : ∀ bb < hi, cycleOf (ring bb) = if bb < b then first else last) :
    boundary ring first last lo hi = some b := by
  induction hgap : hi - lo using Nat.strong_induction_on generalizing lo hi with
  | h gap ih =>
    rw [boundary]
    by_cases hmore : 1 < hi - lo
    · have hmid := hcycle (lo + (hi - lo) / 2) (by omega)
      rw [if_pos hmore]
      by_cases hbefore : lo + (hi - lo) / 2 < b
      · rw [if_pos hbefore] at hmid
        simp only [hmid, if_neg hne, if_true]
        exact ih _ (by omega) hbefore hhi hcycle rfl
      · rw [if_neg hbefore] at hmid
        simp only [hmid, if_true]
        exact ih _ (by omega) hlo (by omega) (fun bb hbb => hcycle bb (by omega)) rfl
    · rw [if_neg hmore]
      exact congrArg some (by omega)

def headBlock (total b : ℕ) : ℕ :=
  if b = 0 then total else b

theorem headByCycle_of_shape
    (h : Shape uuid total ring b c) (htotal : 2 ≤ total) (hwritten : b ≠ 0 ∨ 1 < c) :
    headByCycle ring total =
      some (cycleOf (ring 0), headBlock total b,
        if b = 0 ∨ c = 1 then none else some (c - 1)) := by
  have hpos := h.cycle_pos
  have hlast := h.cycle (total - 1) (by omega)
  have hfirst := h.cycle 0 (by omega)
  unfold headByCycle headBlock
  by_cases hb : b = 0
  · subst hb
    rw [if_neg (by omega)] at hlast hfirst
    simp only [hlast, hfirst, if_true, true_or]
    rw [if_neg (by omega)]
  · have hlt : b < total := by
      rcases h.head_le with hlt | hzero <;> omega
    rw [if_neg (by omega)] at hlast
    rw [if_pos (by omega)] at hfirst
    have hsearch : boundary ring c (c - 1) 0 (total - 1) = some b :=
      boundary_eq (by omega) (by omega) (by omega) fun bb hbb => h.cycle bb (by omega)
    simp only [hlast, hfirst, hsearch, Option.map_some, false_or, hb, if_false]
    rw [if_neg (by omega), if_neg (by omega), if_pos (.inr trivial)]
    by_cases hone : c = 1
    · rw [if_pos hone, if_neg (by omega)]
    · rw [if_neg hone, if_pos (by omega)]

/-! ## The window behind the head -/

def inOrder (total b i : ℕ) (ring : ℕ → List UInt8) : ℕ × List UInt8 :=
  (cell total b i, ring (cell total b i))

theorem readRun_eq {start count expect : ℕ}
    (h : ∀ bb, start ≤ bb → bb < start + count → cycleOf (ring bb) = expect) :
    readRun ring start count expect =
      some ((List.range' start count).map fun bb => (bb, ring bb)) := by
  rw [readRun, if_pos]
  intro bb hbb
  obtain ⟨hle, hlt⟩ := List.mem_range'_1.mp hbb
  exact h bb hle hlt

theorem range'_eq_map_cell {start count skip : ℕ} (ring : ℕ → List UInt8)
    (h : ∀ i < count, cell total b (skip + i) = start + i) :
    (List.range' start count).map (fun bb => (bb, ring bb)) =
      (List.range count).map fun i => inOrder total b (skip + i) ring := by
  rw [List.range'_eq_map_range, List.map_map]
  refine List.map_congr_left fun i hi => ?_
  rw [Function.comp_apply, inOrder, h i (List.mem_range.mp hi)]

theorem map_range_add {α : Type} (f : ℕ → α) (m n : ℕ) :
    (List.range (m + n)).map f = (List.range m).map f ++ (List.range n).map fun i => f (m + i) := by
  rw [List.range_add, List.map_append, List.map_map]
  rfl

theorem readWindow_of_shape
    (h : Shape uuid total ring b c) (htotal : 2 ≤ total) :
    ∃ w ≤ total, (min headWindowBlocks total ≤ w ∨ c = 1 ∧ w = b) ∧
      readWindow ring total (cycleOf (ring 0)) (headBlock total b)
          (if b = 0 ∨ c = 1 then none else some (c - 1)) =
        some ((List.range w).map fun i => inOrder total b (total - w + i) ring) := by
  have hfirst := h.cycle 0 (by omega)
  have hlt : b < total := by
    rcases h.head_le with hlt | hzero <;> omega
  have hwindow : min headWindowBlocks total ≤ total := Nat.min_le_right _ _
  unfold readWindow headBlock
  generalize min headWindowBlocks total = window at hwindow
  by_cases hb : b = 0
  · subst hb
    refine ⟨window, hwindow, .inl le_rfl, ?_⟩
    simp only [if_true]
    rw [if_neg (by omega), readRun_eq]
    · refine congrArg some (range'_eq_map_cell ring fun i hi => ?_)
      rw [cell, if_pos (by omega)]
      omega
    · intro bb _ hbb
      rw [h.cycle bb (by omega), hfirst, if_neg (by omega), if_neg (by omega)]
  have hrecent : ∀ bb < b, cycleOf (ring bb) = cycleOf (ring 0) := by
    intro bb hbb
    rw [h.cycle bb (by omega), hfirst, if_pos hbb, if_pos (by omega)]
  rw [if_neg hb]
  by_cases hnear : b < window
  · rw [if_pos hnear]
    have hrun : readRun ring 0 b (cycleOf (ring 0)) =
        some ((List.range b).map fun i => inOrder total b (total - b + i) ring) := by
      rw [readRun_eq fun bb _ hbb => hrecent bb (by omega)]
      refine congrArg some (range'_eq_map_cell ring fun i hi => ?_)
      rw [cell, if_neg (by omega)]
      omega
    by_cases hone : c = 1
    · refine ⟨b, by omega, .inr ⟨hone, rfl⟩, ?_⟩
      rw [if_pos (.inr hone)]
      simp [hrun]
    · refine ⟨window, hwindow, .inl le_rfl, ?_⟩
      have holder : readRun ring (total - (window - b)) (window - b) (c - 1) =
          some ((List.range (window - b)).map fun i =>
            inOrder total b (total - window + i) ring) := by
        rw [readRun_eq]
        · refine congrArg some (range'_eq_map_cell ring fun i hi => ?_)
          rw [cell, if_pos (by omega)]
          omega
        · intro bb hle hbb
          rw [h.cycle bb (by omega), if_neg (by omega)]
      rw [if_neg (by omega)]
      simp only [holder, hrun, Option.bind_eq_bind, Option.bind_some]
      have hsplit := map_range_add (fun i => inOrder total b (total - window + i) ring)
        (window - b) b
      rw [Nat.sub_add_cancel hnear.le] at hsplit
      rw [hsplit]
      refine congrArg some (congrArg _ (List.map_congr_left fun i _ => ?_))
      have hplace : total - b + i = total - window + (window - b + i) := by omega
      rw [hplace]
  · refine ⟨window, hwindow, .inl le_rfl, ?_⟩
    rw [if_neg hnear, readRun_eq fun bb _ hbb => hrecent bb (by omega)]
    refine congrArg some (range'_eq_map_cell ring fun i hi => ?_)
    rw [cell, if_neg (by omega)]
    omega

/-! ## Headers in the order they were written -/

theorem cell_surj (hb : b < total) (hbb : bb < total) : ∃ i < total, cell total b i = bb := by
  by_cases hle : b ≤ bb
  · refine ⟨bb - b, by omega, ?_⟩
    rw [cell, if_pos (by omega)]
    omega
  · refine ⟨bb + total - b, by omega, ?_⟩
    rw [cell, if_neg (by omega)]
    omega

theorem cell_lt {i : ℕ} (hb : b < total) (hi : i < total) : cell total b i < total := by
  unfold cell
  split <;> omega

theorem Shape.lsn_lt
    (h : Shape uuid total ring b c) (hb : b < total) {i j : ℕ} (hij : i < j) (hj : j < total)
    (hi' : isHeader uuid (ring (cell total b i)) = true)
    (hj' : isHeader uuid (ring (cell total b j)) = true) :
    lsnAt (ring (cell total b i)) < lsnAt (ring (cell total b j)) := by
  have hpos := h.cycle_pos
  obtain ⟨hcyclei, hblocki⟩ := h.names _ (cell_lt hb (by omega)) hi'
  obtain ⟨hcyclej, hblockj⟩ := h.names _ (cell_lt hb hj) hj'
  have horder : (if cell total b i < b then c else c - 1) < (if cell total b j < b then c else c - 1)
      ∨ (if cell total b i < b then c else c - 1) = (if cell total b j < b then c else c - 1) ∧
        cell total b i < cell total b j := by
    unfold cell
    by_cases hwrapi : b + i < total
    · rw [if_pos hwrapi, if_neg (by omega)]
      by_cases hwrapj : b + j < total
      · rw [if_pos hwrapj, if_neg (by omega)]
        exact .inr ⟨rfl, by omega⟩
      · rw [if_neg hwrapj, if_pos (by omega)]
        exact .inl (by omega)
    · have hwrapj : ¬b + j < total := by omega
      rw [if_neg hwrapi, if_neg hwrapj, if_pos (by omega), if_pos (by omega)]
      exact .inr ⟨rfl, by omega⟩
  omega

theorem scanWholeRing_of_greatest
    (hbb : bb < total) (hheader : isHeader uuid (ring bb) = true)
    (hgreatest : ∀ x < total, x ≠ bb → isHeader uuid (ring x) = true →
      lsnAt (ring x) < lsnAt (ring bb)) :
    scanWholeRing uuid ring total = some (recordAt bb (ring bb)) := by
  -- after the first `n` blocks: the record once it has been passed, something lesser before
  have hrun : ∀ n ≤ total, ∃ newest, scanWholeRing uuid ring n = newest ∧
      if bb < n then newest = some (recordAt bb (ring bb))
      else ∀ r, newest = some r → r.lsn < lsnAt (ring bb) := by
    intro n
    induction n with
    | zero => exact fun _ => ⟨none, rfl, by simp⟩
    | succ n ih =>
      intro hn
      obtain ⟨newest, hnewest, hheld⟩ := ih (by omega)
      have hstep : scanWholeRing uuid ring (n + 1) = scanStep uuid ring newest n := by
        rw [← hnewest, scanWholeRing, scanWholeRing, List.range_succ, List.foldl_append,
          List.foldl_cons, List.foldl_nil]
      refine ⟨_, hstep, ?_⟩
      rcases Nat.lt_trichotomy bb n with hlt | rfl | hgt
      · rw [if_pos hlt] at hheld
        rw [if_pos (by omega), hheld]
        unfold scanStep
        split
        · next hn' => exact if_pos (hgreatest n (by omega) (by omega) hn').le
        · rfl
      · rw [if_neg (by omega)] at hheld
        rw [if_pos (by omega)]
        unfold scanStep
        rw [if_pos hheader]
        cases newest with
        | none => rfl
        | some r => exact if_neg (Nat.not_le.mpr (hheld r rfl))
      · rw [if_neg (by omega)] at hheld
        rw [if_neg (by omega)]
        unfold scanStep
        split
        · next hn' =>
          have hless := hgreatest n (by omega) (by omega) hn'
          intro r hr
          cases newest with
          | none =>
            cases hr
            exact hless
          | some r' =>
            simp only at hr
            split at hr
            · exact hheld r hr
            · cases hr
              exact hless
        · exact hheld
  obtain ⟨newest, hnewest, hheld⟩ := hrun total le_rfl
  rw [if_pos hbb] at hheld
  rw [hnewest, hheld]

theorem find?_reverse_range {α : Type} (f : ℕ → α) (p : α → Bool) (n : ℕ) (a : α) :
    (((List.range n).map f).reverse.find? p = some a) ↔
      ∃ i < n, f i = a ∧ p a = true ∧ ∀ j, i < j → j < n → p (f j) = false := by
  simp only [List.find?_eq_some_iff_getElem, List.getElem_reverse, List.getElem_map,
    List.getElem_range, List.length_reverse, List.length_map, List.length_range, Bool.not_eq_true']
  constructor
  · rintro ⟨hp, i, hi, rfl, hbefore⟩
    refine ⟨n - 1 - i, by omega, rfl, hp, fun j hj hjn => ?_⟩
    have h := hbefore (n - 1 - j) (by omega)
    rwa [show n - 1 - (n - 1 - j) = j by omega] at h
  · rintro ⟨i, hi, rfl, hp, hlater⟩
    refine ⟨hp, n - 1 - i, by omega, congrArg f (by omega), fun j hj => ?_⟩
    exact hlater _ (by omega) (by omega)

/-! ## Both searches -/

theorem scanWholeRing_of_newestRecordByCycle (h : Shape uuid total ring b c) {found : Record}
    (hfast : newestRecordByCycle uuid ring total = some found) :
    scanWholeRing uuid ring total = some found := by
  unfold newestRecordByCycle at hfast
  split at hfast
  · cases hfast
  next htotal =>
  have hb : b < total := by
    rcases h.head_le with hlt | hzero <;> omega
  have hwritten : b ≠ 0 ∨ 1 < c := by
    by_contra hnone
    have hfirst := h.cycle 0 (by omega)
    have hzero : cycleOf (ring 0) = 0 := by
      rw [hfirst]
      split <;> omega
    simp [headByCycle, hzero] at hfast
  obtain ⟨w, hw, -, hwindow⟩ := readWindow_of_shape h (by omega)
  rw [headByCycle_of_shape h (by omega) hwritten] at hfast
  simp only [Option.bind_eq_bind, Option.bind_some, hwindow] at hfast
  obtain ⟨⟨bb, header⟩, hfind, hend⟩ := Option.bind_eq_some_iff.mp hfast
  obtain ⟨i, hi, hplace, hheader, hlater⟩ := (find?_reverse_range _ _ _ _).mp hfind
  obtain ⟨rfl, rfl⟩ := Prod.mk.inj hplace
  split at hend
  · cases hend
    refine scanWholeRing_of_greatest (cell_lt hb (by omega)) hheader fun x hx hne hx' => ?_
    obtain ⟨j, hj, rfl⟩ := cell_surj hb hx
    refine h.lsn_lt hb ?_ (by omega) hx' hheader
    by_contra hafter
    have hne' : j ≠ total - w + i := fun heq => hne (by rw [heq])
    have hmiss := hlater (j - (total - w)) (by omega) (by omega)
    have hback : total - w + (j - (total - w)) = j := by omega
    rw [hback] at hmiss
    cases hx'.symm.trans hmiss
  · cases hend

theorem headBlock_append (hb : b < total) (hpos : 0 < n) :
    headBlock total (cell total b n) =
      if total < b + n then b + n - total else b + n := by
  unfold headBlock cell
  split_ifs <;> omega

theorem cell_append {n : ℕ} (hb : b < total) (hn : n ≤ total) (hk : k < n) :
    cell total (cell total b n) (total - n + k) = cell total b k := by
  unfold cell
  split_ifs <;> omega

/-- The search by cycle finds a record of up to its window's length whose first block alone reads
as a header. -/
theorem newestRecordByCycle_of_append (h : Shape uuid total ring b c)
    (happ : Appends uuid total b c n ring ring') (htotal : 2 ≤ total) (hn : n ≤ headWindowBlocks)
    (halone : ∀ k, 0 < k → k < n → isHeader uuid (ring' (cell total b k)) = false) :
    newestRecordByCycle uuid ring' total = some (recordAt b (ring' b)) := by
  have hshape := h.append happ
  have hcpos := h.cycle_pos
  have hpos := happ.pos
  have hfits := happ.fits
  have hb : b < total := by
    rcases h.head_le with hlt | hzero <;> omega
  have hwritten : cell total b n ≠ 0 ∨ 1 < cycleAt total b c n := by
    unfold cell cycleAt
    split <;> omega
  obtain ⟨w, hw, hlong, hwindow⟩ := readWindow_of_shape hshape htotal
  have hcover : n ≤ w := by
    rcases hlong with hlong | ⟨hone, hhead⟩
    · exact (Nat.le_min.mpr ⟨hn, hfits⟩).trans hlong
    · unfold cycleAt at hone
      unfold cell at hhead
      split at hone
      · next hin =>
        rw [if_pos hin] at hhead
        omega
      · omega
  have hzero : cell total b 0 = b := if_pos (by omega)
  have hfind : ((List.range w).map fun i =>
      inOrder total (cell total b n) (total - w + i) ring').reverse.find?
        (fun block => isHeader uuid block.2) = some (b, ring' b) := by
    refine (find?_reverse_range _ _ _ _).mpr ⟨w - n, by omega, ?_, happ.header, fun j hj hj' => ?_⟩
    · have hplace : total - w + (w - n) = total - n + 0 := by omega
      rw [inOrder, hplace, cell_append hb hfits hpos, hzero]
    · have hplace : total - w + j = total - n + (j - (w - n)) := by omega
      rw [inOrder, hplace, cell_append hb hfits (by omega)]
      exact halone _ (by omega) (by omega)
  have hend : endOf total b (ring' b) = headBlock total (cell total b n) := by
    rw [headBlock_append hb hpos, endOf, Nat.add_assoc, happ.length]
  rw [newestRecordByCycle, if_neg (by omega), headByCycle_of_shape hshape htotal hwritten]
  simp only [Option.bind_eq_bind, Option.bind_some, hwindow, hfind]
  exact if_pos hend

theorem search_eq_scan {records : List (ℕ × ℕ)} (h : Left uuid total records ring b c) :
    scanForNewestRecord uuid ring total = scanWholeRing uuid ring total := by
  unfold scanForNewestRecord
  split
  · next found hfast => exact (scanWholeRing_of_newestRecordByCycle h.shape hfast).symm
  · rfl

/-- On every ring left by appending, the search that tries the cycle numbers first returns what
the full scan returns; and the cycle numbers alone give the newest record, unless it is longer
than the window or another of its blocks reads as a header. -/
theorem scanForNewestRecord_of_left {uuid : List UInt8} {total : ℕ} {records : List (ℕ × ℕ)}
    {ring : ℕ → List UInt8} {b c : ℕ} (h : Left uuid total records ring b c) :
    scanForNewestRecord uuid ring total = scanWholeRing uuid ring total ∧
      ∀ start n older, records = (start, n) :: older → 2 ≤ total → n ≤ headWindowBlocks →
        (∀ k, 0 < k → k < n → isHeader uuid (ring (cell total start k)) = false) →
        newestRecordByCycle uuid ring total = scanWholeRing uuid ring total ∧
        scanWholeRing uuid ring total = some (recordAt start (ring start)) := by
  refine ⟨search_eq_scan h, ?_⟩
  intro start n older hrecords htotal hn halone
  have hshape := h.shape
  cases h with
  | blank _ => cases hrecords
  | append hleft happ =>
    obtain ⟨hpiece, -⟩ := List.cons.inj hrecords
    obtain ⟨rfl, rfl⟩ := Prod.mk.inj hpiece
    have hfast := newestRecordByCycle_of_append hleft.shape happ htotal hn halone
    have hscan := scanWholeRing_of_newestRecordByCycle hshape hfast
    exact ⟨hfast.trans hscan.symm, hscan⟩

/-! ## The records of the ring -/

/-- Blocks with a header where a record of `records` starts, and nowhere else. -/
structure Lays (uuid : List UInt8) (total : ℕ) (records : Ring) (ring : ℕ → List UInt8) : Prop where
  header : ∀ bb < total, ∀ r, records bb = some (r, 0) →
    isHeader uuid (ring bb) = true ∧ lsnAt (ring bb) = r.lsn
  other : ∀ bb < total, (∀ r, records bb ≠ some (r, 0)) → isHeader uuid (ring bb) = false

theorem Lays.writeRecord {crc32c : List UInt8 → ℕ} {bytes : List UInt8} {r : LogRecord} {records : Ring}
    (h : Lays uuid total records ring) (hok : encodeRecord crc32c uuid r = .ok bytes)
    (huuid : uuid.length = 16) (hsize : r.iclogSize ≤ xlogHeaderCycleSize)
    (hblock : r.block < 2 ^ 32) (hcycle : r.cycle < 2 ^ 32) (hmagic : r.cycle ≠ xlogHeaderMagic)
    (hfits : r.block + r.blocks ≤ total) :
    Lays uuid total (records.writeRecord r) (writeBytes ring r.block r.blocks bytes) := by
  obtain ⟨happ, hrest⟩ := appends_writeBytes total ring hok huuid hsize hblock hcycle hmagic hfits
  have hlsn := happ.names 0 happ.pos
  rw [cell, cycleAt, if_pos (by have := happ.pos; omega), if_pos (by have := happ.pos; omega),
    Nat.add_zero] at hlsn
  refine ⟨fun bb hbb r' hr' => ?_, fun bb hbb hno => ?_⟩
  · unfold Ring.writeRecord at hr'
    split at hr'
    · next hin =>
      obtain ⟨rfl, hzero⟩ := Prod.mk.inj (Option.some.inj hr')
      obtain rfl : r.block = bb := by omega
      obtain ⟨hdiv, hmod⟩ := hlsn happ.header
      rw [← Nat.div_add_mod' (lsnAt _) (2 ^ 32), hdiv, hmod]
      exact ⟨happ.header, rfl⟩
    · next hout =>
      rw [writeBytes, if_neg hout]
      exact h.header bb hbb r' hr'
  · by_cases hin : r.block ≤ bb ∧ bb < r.block + r.blocks
    · have hne : bb - r.block ≠ 0 := fun hzero => hno r (by rw [Ring.writeRecord, if_pos hin, hzero])
      have hbb' : r.block + (bb - r.block) = bb := by omega
      exact hbb' ▸ hrest (bb - r.block) (by omega) (by omega)
    · rw [writeBytes, if_neg hin]
      refine h.other bb hbb fun r' hr' => hno r' ?_
      rw [Ring.writeRecord, if_neg hin, hr']

theorem scan_of_lays {records : Ring} (h : Lays uuid total records ring) {n : ℕ} (hn : n ≤ total) :
    (List.range n).foldl (scanStep uuid ring) none =
      ((List.range n).foldl (Log.scanStep records) none).map fun p => recordAt p.1 (ring p.1) := by
  induction n with
  | zero => rfl
  | succ n ih =>
    have hfound := scan_holds records n
    rw [List.range_succ, List.foldl_append, List.foldl_append, List.foldl_cons, List.foldl_nil,
      List.foldl_cons, List.foldl_nil, ih (by omega)]
    generalize (List.range n).foldl (Log.scanStep records) none = newest at hfound
    by_cases hheader : ∃ r, records n = some (r, 0)
    · obtain ⟨r, hr⟩ := hheader
      obtain ⟨hhere, hlsn⟩ := h.header n (by omega) r hr
      rw [scanStep_of_header hr, scanStep.eq_def, if_pos hhere]
      cases newest with
      | none => rfl
      | some p =>
        have hp : (recordAt p.1 (ring p.1)).lsn = p.2.lsn :=
          (h.header p.1 (by have := hfound.1; omega) p.2 hfound.2.1).2
        simp only [Option.map_some, outranks, hp, hlsn, decide_eq_true_eq]
        split <;> rfl
    · have hno : ∀ r, records n ≠ some (r, 0) := fun r hr => hheader ⟨r, hr⟩
      rw [scanStep_of_not_header hno, scanStep.eq_def, h.other n (by omega) hno]
      rfl

/-- On a ring left by appending records, the search finds the record the head is read from. -/
theorem scanForNewestRecord_of_records {records : Ring} {places : List (ℕ × ℕ)}
    (hleft : Left uuid total places ring b c) (h : Lays uuid total records ring) :
    scanForNewestRecord uuid ring total =
      (Log.scanWholeRing records total).map fun p => recordAt p.1 (ring p.1) :=
  (search_eq_scan hleft).trans (scan_of_lays h le_rfl)

def oneBlockRecord (block cycle : ℕ) : LogRecord where
  block := block
  cycle := cycle
  prevBlock := 0
  tailLsn := 0
  iclogSize := 32768
  tid := 0
  ops := []
  len := 512

def oneBlockBytes (block cycle : ℕ) : List UInt8 :=
  headerBytes (List.replicate 16 0) (oneBlockRecord block cycle)
    (displacedWords (oneBlockRecord block cycle)) 0 ++ stampedPayload (oneBlockRecord block cycle)

def wrappedRing : ℕ → List UInt8 :=
  writeBytes (writeBytes (writeBytes (fun _ => List.replicate 512 0) 0 2 (oneBlockBytes 0 1)) 2 2
    (oneBlockBytes 2 1)) 0 2 (oneBlockBytes 0 2)

theorem appends_oneBlock (ring : ℕ → List UInt8) {block cycle : ℕ} (hblock : block + 2 ≤ 4)
    (hcycle : cycle < 3) :
    Appends (List.replicate 16 0) 4 block cycle 2 ring
      (writeBytes ring block 2 (oneBlockBytes block cycle)) := by
  have hok : encodeRecord (fun _ => 0) (List.replicate 16 0) (oneBlockRecord block cycle) =
      .ok (oneBlockBytes block cycle) :=
    encodeRecord_eq (show divCeil 512 512 ≤ 64 by decide)
  have hblocks : (oneBlockRecord block cycle).blocks = 2 := by
    simp [LogRecord.blocks, LogRecord.headerBlocks, oneBlockRecord, xlogHeaderCycleSize, divCeil]
  obtain ⟨happ, -⟩ := appends_writeBytes 4 ring hok (by decide) le_rfl
    (show block < 2 ^ 32 by omega) (show cycle < 2 ^ 32 by omega)
    (show cycle ≠ 0xfeedbabe by omega) (by rw [hblocks]; exact hblock)
  rwa [hblocks] at happ

theorem left_wrappedRing :
    Left (List.replicate 16 0) 4 [(0, 2), (2, 2), (0, 2)] wrappedRing 2 2 := by
  have hblank : Left (List.replicate 16 0) 4 [] (fun _ => List.replicate 512 0) 0 1 :=
    .blank fun _ _ => by decide
  have hone := hblank.append (appends_oneBlock _ (by decide) (by decide))
  have htwo := hone.append (appends_oneBlock _ (by decide) (by decide))
  exact htwo.append (appends_oneBlock _ (by decide) (by decide))

theorem scanForNewestRecord_wrappedRing :
    scanForNewestRecord (List.replicate 16 0) wrappedRing 4 =
        scanWholeRing (List.replicate 16 0) wrappedRing 4 ∧
      scanWholeRing (List.replicate 16 0) wrappedRing 4 = some (recordAt 0 (wrappedRing 0)) :=
  have h := scanForNewestRecord_of_left left_wrappedRing
  ⟨h.1, (h.2 0 2 _ rfl (by decide) (by decide) fun k hpos hk => by
    obtain rfl : k = 1 := by omega
    decide +kernel).2⟩

end FsXfs.Log.Search
