import FsXfs.Log.Replay

/-!
# A block's changes and its image

`group_write::changed_chunks` logs the chunks of a block that differ from what it held before, and
`buf_write::image_as_written` is what the mount's overlay holds for it from then on. The checksum is
found by two tables, one in the writer and one in the replay.
-/

namespace FsXfs.Log

open Bytes Quota

set_option autoImplicit false
set_option maxRecDepth 8192

/-! ## Building the item -/

namespace BufferItem

def chunkCount (bytes : ℕ) : ℕ :=
  divCeil bytes blfChunk

def new (blkno : ℕ) (data : List UInt8) (bufType flags : ℕ) : Except Error BufferItem :=
  if data.length % 512 = 0 ∧ data ≠ [] then
    .ok ⟨blkno, bufType, flags % 2 ^ 11, data, List.replicate (divCeil (chunkCount data.length) 32) 0⟩
  else
    .error (.panicked s!"a buffer is a whole number of 512-byte basic blocks, not {data.length} bytes")

def markChunk (dirty : List ℕ) (chunk : ℕ) : List ℕ :=
  dirty.modify (chunk / 32) (· ||| 2 ^ (chunk % 32))

def mark (item : BufferItem) (offset len : ℕ) : Except Error BufferItem :=
  if item.data.length < offset + len then
    .error (.panicked s!"the range ends at {offset + len} and the buffer is {item.data.length} bytes")
  else if len = 0 then .ok item
  else
    let first := offset / blfChunk
    let last := (offset + len - 1) / blfChunk
    .ok { item with dirty := (List.range' first (last + 1 - first)).foldl markChunk item.dirty }

def markChanged (before : List UInt8) (item : BufferItem) (chunk : ℕ) : Except Error BufferItem :=
  let from_ := chunk * blfChunk
  let to_ := min (from_ + blfChunk) before.length
  if slice before from_ (to_ - from_) ≠ slice item.data from_ (to_ - from_) then
    item.mark from_ (to_ - from_)
  else .ok item

end BufferItem

open BufferItem

def changedChunks (blkno : ℕ) (before after : List UInt8) (bufType : ℕ) :
    Except Error BufferItem := do
  ensure (before.length = after.length)
    (.panicked s!"a buffer diff compares {before.length} bytes against {after.length}")
  let item ← BufferItem.new blkno after bufType 0
  (List.range (divCeil before.length blfChunk)).foldlM (markChanged before) item

/-! ## The image the overlay holds -/

section

variable (crc32c : List UInt8 → ℕ)

-- where `image_as_written` finds the checksum
def writtenCrcOffset (bufType : ℕ) (data : List UInt8) : Option ℕ :=
  if bufType = blftAgf then some 216
  else if bufType = blftAgi then some 312
  else if bufType = blftAgfl then some 32
  else if bufType = blftBtree ∧ 4 ≤ data.length ∧ beValue (slice data 0 4) = xfsBmapCrcMagic then
    some 64
  else if bufType = blftBtree then some 52
  else if bufType = blftDirBlock then some 4
  else if bufType = blftDirData then some 4
  else if bufType = blftDirLeaf1 then some 12
  else if bufType = blftDirLeafn ∨ bufType = blftDaNode then some 12
  else if bufType = blftDirFree then some 4
  else if bufType = blftAttrLeaf then some 12
  else if bufType = blftSymlink then some 12
  else if bufType = blftSb ∧ 100 + 1 < data.length ∧ beValue (slice data 100 2) % 16 = 5 then
    some 224
  else none

def imageAsWritten (item : BufferItem) : List UInt8 :=
  match writtenCrcOffset item.bufType item.data with
  | some at_ => stampAt crc32c at_ item.data
  | none => item.data

end

/-! ## Which chunks are marked -/

theorem bitSet_markChunk {dirty : List ℕ} {chunk : ℕ} (h : chunk / 32 < dirty.length) (c : ℕ) :
    bitSet (markChunk dirty chunk) c = (bitSet dirty c || decide (c = chunk)) := by
  rw [bitSet, bitSet, markChunk, List.getD_eq_getElem?_getD, List.getElem?_modify,
    List.getD_eq_getElem?_getD]
  by_cases hword : chunk / 32 = c / 32
  · have hlt : c / 32 < dirty.length := hword ▸ h
    rw [List.getElem?_eq_getElem hlt]
    have hbit : (chunk % 32 = c % 32) ↔ c = chunk := by omega
    simp [hword, Nat.testBit_two_pow, hbit]
  · have hne : c ≠ chunk := fun heq => hword (by rw [heq])
    simp [hword, hne]

theorem markChunk_lt {dirty : List ℕ} (h : ∀ w ∈ dirty, w < 2 ^ 32) (chunk : ℕ) :
    ∀ w ∈ markChunk dirty chunk, w < 2 ^ 32 := by
  intro w hw
  obtain ⟨i, hi, rfl⟩ := List.getElem_of_mem hw
  rw [markChunk, List.length_modify] at hi
  have hword := h _ (List.getElem_mem hi)
  simp only [markChunk, List.getElem_modify]
  split
  · exact Nat.or_lt_two_pow hword (Nat.pow_lt_pow_right (by decide) (Nat.mod_lt _ (by decide)))
  · exact hword

def Differs (before after : List UInt8) (c : ℕ) : Prop :=
  slice before (c * blfChunk) blfChunk ≠ slice after (c * blfChunk) blfChunk

instance (before after : List UInt8) (c : ℕ) : Decidable (Differs before after c) :=
  inferInstanceAs (Decidable (_ ≠ _))

variable {before after : List UInt8} {item : BufferItem} {bufType : ℕ}

theorem markChanged_eq {c : ℕ} (hlen : before.length = item.data.length)
    (hin : (c + 1) * blfChunk ≤ before.length) :
    markChanged before item c = .ok { item with
      dirty := if Differs before item.data c then markChunk item.dirty c else item.dirty } := by
  have hto : min (c * blfChunk + blfChunk) before.length - c * blfChunk = blfChunk := by
    rw [Nat.add_mul] at hin
    omega
  have hunfold : markChanged before item c = if Differs before item.data c then
      item.mark (c * blfChunk) blfChunk else .ok item := by
    rw [markChanged]
    simp only [hto]
    rfl
  rw [hunfold]
  by_cases hdiff : Differs before item.data c
  · have hrange : List.range' c ((c * blfChunk + blfChunk - 1) / blfChunk + 1 - c) = [c] := by
      have hlast : (c * blfChunk + blfChunk - 1) / blfChunk = c := by
        simp only [blfChunk]
        omega
      rw [hlast, Nat.add_sub_cancel_left]
      rfl
    have hfirst : c * blfChunk / blfChunk = c := Nat.mul_div_cancel c (by decide)
    rw [if_pos hdiff, if_pos hdiff, mark, if_neg (by rw [Nat.add_mul] at hin; omega),
      if_neg (by decide), hfirst]
    simp only [hrange, List.foldl_cons, List.foldl_nil]
  · rw [if_neg hdiff, if_neg hdiff]

/-- What the loop has marked after `n` chunks. -/
structure Marked (before : List UInt8) (start item : BufferItem) (n : ℕ) : Prop where
  same : item = { start with dirty := item.dirty }
  words : item.dirty.length = start.dirty.length
  small : ∀ w ∈ item.dirty, w < 2 ^ 32
  bits : ∀ c, bitSet item.dirty c = true ↔ c < n ∧ Differs before start.data c

theorem foldlM_markChanged {start : BufferItem} {words : ℕ}
    (hdirty : start.dirty = List.replicate words 0) (hlen : before.length = start.data.length)
    {n : ℕ} (hn : n * blfChunk ≤ before.length) (hwords : n ≤ words * 32) :
    ∃ item, (List.range n).foldlM (markChanged before) start = .ok item ∧
      Marked before start item n := by
  induction n with
  | zero =>
    refine ⟨start, rfl, rfl, rfl, ?_, fun c => ?_⟩
    · rw [hdirty]
      intro w hw
      rw [List.eq_of_mem_replicate hw]
      decide
    · have hclear : bitSet start.dirty c = false := by
        rw [bitSet, hdirty, List.getD_eq_getElem?_getD, List.getElem?_replicate]
        split <;> simp
      simp [hclear]
  | succ n ih =>
    obtain ⟨item, hrun, hmarked⟩ := ih (by rw [Nat.add_mul] at hn; omega) (by omega)
    have hdata : item.data = start.data := by rw [hmarked.same]
    have hstep := @markChanged_eq before item n (by rw [hdata]; exact hlen) hn
    refine ⟨{ item with
      dirty := if Differs before start.data n then markChunk item.dirty n else item.dirty },
      ?_, ?_, ?_, ?_, fun c => ?_⟩
    · rw [List.range_succ, List.foldlM_append, hrun]
      change (markChanged before item n >>= pure) = _
      rw [hstep, hdata]
      rfl
    · rw [hmarked.same]
    · split
      · rw [markChunk, List.length_modify, hmarked.words]
      · exact hmarked.words
    · split
      · exact markChunk_lt hmarked.small n
      · exact hmarked.small
    · have hword : n / 32 < item.dirty.length := by
        rw [hmarked.words, hdirty, List.length_replicate]
        omega
      by_cases hdiff : Differs before start.data n
      · rw [if_pos hdiff, bitSet_markChunk hword, Bool.or_eq_true, hmarked.bits, decide_eq_true_eq]
        constructor
        · rintro (⟨hlt, hc⟩ | rfl)
          · exact ⟨by omega, hc⟩
          · exact ⟨by omega, hdiff⟩
        · rintro ⟨hlt, hc⟩
          by_cases heq : c = n
          · exact .inr heq
          · exact .inl ⟨by omega, hc⟩
      · rw [if_neg hdiff, hmarked.bits]
        constructor
        · rintro ⟨hlt, hc⟩
          exact ⟨by omega, hc⟩
        · rintro ⟨hlt, hc⟩
          refine ⟨?_, hc⟩
          rcases Nat.lt_succ_iff_lt_or_eq.mp hlt with hlt | rfl
          · exact hlt
          · exact absurd hc hdiff

theorem chunkCount_of_blocks {n : ℕ} (h : n % 512 = 0) :
    chunkCount n * blfChunk = n ∧ chunkCount n ≤ divCeil (chunkCount n) 32 * 32 := by
  refine ⟨?_, le_divCeil_mul _ (by decide)⟩
  simp only [chunkCount, divCeil, blfChunk]
  omega

theorem changedChunks_spec {blkno : ℕ} (h : changedChunks blkno before after bufType = .ok item) :
    before.length = after.length ∧ after.length % 512 = 0 ∧ after ≠ [] ∧
      item = ⟨blkno, bufType, 0, after, item.dirty⟩ ∧
      item.dirty.length = divCeil (chunkCount after.length) 32 ∧
      (∀ w ∈ item.dirty, w < 2 ^ 32) ∧
      ∀ c, bitSet item.dirty c = true ↔ c < chunkCount after.length ∧ Differs before after c := by
  simp only [changedChunks, bind_eq_ok, ensure_eq_ok] at h
  obtain ⟨-, hlen, start, hnew, hfold⟩ := h
  rw [BufferItem.new] at hnew
  split at hnew
  · next hwhole =>
    obtain ⟨hwhole, hne⟩ := hwhole
    have hstart := Except.ok.inj hnew
    obtain ⟨hchunks, hwords⟩ := chunkCount_of_blocks hwhole
    have hdata : start.data = after := by rw [← hstart]
    obtain ⟨marked, hrun, hmarked⟩ := @foldlM_markChanged before start
      (divCeil (chunkCount after.length) 32) (by rw [← hstart]) (by rw [hdata]; exact hlen)
      (chunkCount after.length) (by rw [hchunks, hlen]) hwords
    have hcount : divCeil before.length blfChunk = chunkCount after.length := by
      rw [hlen, chunkCount]
    rw [hcount, hrun] at hfold
    have hitem := Except.ok.inj hfold
    subst hitem
    refine ⟨hlen, hwhole, hne, ?_, ?_, hmarked.small, ?_⟩
    · rw [hmarked.same, ← hstart]
      simp
    · rw [hmarked.words, ← hstart, List.length_replicate]
    · intro c
      have hc := hmarked.bits c
      rw [hdata] at hc
      exact hc
  · cases hnew

/-! ## Copying the runs back -/

/-- Runs taken from one block and copied over another of its length put its bytes at their places,
and change nothing else. -/
theorem getElem?_copyRuns {runs : List (ℕ × ℕ)}
    (hinside : ∀ run ∈ runs, (run.1 + run.2) * blfChunk ≤ after.length) (buffer : List UInt8)
    (hlen : buffer.length = after.length) (k : ℕ) :
    (copyRuns runs (runs.map fun run => slice after (run.1 * blfChunk) (run.2 * blfChunk))
      buffer)[k]? =
      if ∃ run ∈ runs, InRun run (k / blfChunk) then after[k]? else buffer[k]? := by
  induction runs generalizing buffer with
  | nil => simp [copyRuns]
  | cons run runs ih =>
    have hrun := hinside run List.mem_cons_self
    have hslice : (slice after (run.1 * blfChunk) (run.2 * blfChunk)).length =
        run.2 * blfChunk := slice_length (by rw [Nat.add_mul] at hrun; omega)
    have htake : (slice after (run.1 * blfChunk) (run.2 * blfChunk)).take
        (min (run.2 * blfChunk) (buffer.length - run.1 * blfChunk)) =
        slice after (run.1 * blfChunk) (run.2 * blfChunk) := by
      apply List.take_of_length_le
      rw [hslice, hlen, Nat.add_mul] at *
      omega
    have hfit : run.1 * blfChunk +
        (slice after (run.1 * blfChunk) (run.2 * blfChunk)).length ≤ buffer.length := by
      rw [hslice, hlen, ← Nat.add_mul]
      exact hrun
    have hpatched := patch_length hfit
    have hrest := ih (fun r hr => hinside r (List.mem_cons_of_mem _ hr)) _
      (hpatched.trans hlen)
    rw [copyRuns, List.map_cons, List.zip_cons_cons, List.foldl_cons]
    simp only [htake]
    rw [copyRuns] at hrest
    rw [hrest, getElem?_patch hfit, hslice]
    have hin : (run.1 * blfChunk ≤ k ∧ k < run.1 * blfChunk + run.2 * blfChunk) ↔
        InRun run (k / blfChunk) := by
      simp only [InRun, blfChunk]
      omega
    simp only [hin, List.exists_mem_cons_iff]
    by_cases hlater : ∃ r ∈ runs, InRun r (k / blfChunk)
    · rw [if_pos hlater, if_pos (.inr hlater)]
    rw [if_neg hlater]
    by_cases hhere : InRun run (k / blfChunk)
    · have hplace := hin.mpr hhere
      rw [if_pos hhere, if_pos (.inl hhere), getElem?_slice, if_pos (by omega)]
      congr 1
      omega
    · rw [if_neg hhere, if_neg fun hany => hany.elim hhere hlater]

theorem getElem?_of_not_differs {k : ℕ} (h : ¬Differs before after (k / blfChunk)) :
    before[k]? = after[k]? := by
  have hslices : slice before (k / blfChunk * blfChunk) blfChunk =
      slice after (k / blfChunk * blfChunk) blfChunk := by
    simpa [Differs] using h
  have hbyte := congrArg (fun l => l[k % blfChunk]?) hslices
  have hsplit : k / blfChunk * blfChunk + k % blfChunk = k := by
    rw [Nat.mul_comm]
    exact Nat.div_add_mod k blfChunk
  simpa [getElem?_slice, Nat.mod_lt k (show 0 < blfChunk by decide), hsplit] using hbyte

theorem copyRuns_changed {blkno : ℕ} (h : changedChunks blkno before after bufType = .ok item) :
    copyRuns item.runs
      (item.runs.map fun run => slice after (run.1 * blfChunk) (run.2 * blfChunk)) before =
      after := by
  obtain ⟨hlen, hwhole, hne, hitem, hwords, hsmall, hbits⟩ := changedChunks_spec h
  obtain ⟨hchunks, hfit⟩ := chunkCount_of_blocks hwhole
  have hruns : item.runs = runsOf item.dirty (chunkCount after.length) := by
    rw [BufferItem.runs, hitem, chunkCount]
  obtain ⟨hinside, hcover⟩ := @runsOf_spec item.dirty (chunkCount after.length)
    (by rw [hwords]; exact hfit)
  rw [hruns]
  apply List.ext_getElem?
  intro k
  rw [getElem?_copyRuns _ before hlen]
  · split
    · rfl
    · next hout =>
      by_cases hk : k / blfChunk < chunkCount after.length
      · apply getElem?_of_not_differs
        intro hdiff
        exact hout ((hcover _ hk).mp ((hbits _).mpr ⟨hk, hdiff⟩))
      · have hpast : after.length ≤ k := by
          rw [← hchunks]
          simp only [blfChunk] at hk ⊢
          omega
        rw [List.getElem?_eq_none hpast, List.getElem?_eq_none (by omega)]
  · intro run hrun
    rw [← hchunks]
    exact Nat.mul_le_mul_right _ (hinside run hrun).1

/-! ## Reading the item back -/

namespace BufferItem

/-- `format_op` counts an item's operations and its basic blocks in sixteen bits each, and panics
past them. -/
def Describable (item : BufferItem) : Prop :=
  1 + item.runs.length < 2 ^ 16 ∧ item.data.length / 512 < 2 ^ 16

theorem describable_of_block (h : item.data.length ≤ Superblock.maxBlocksize) :
    item.Describable := by
  have hruns := runsOf_length item.dirty (divCeil item.data.length blfChunk)
  rw [← runs] at hruns
  simp only [Superblock.maxBlocksize] at h
  simp only [divCeil, blfChunk] at hruns
  constructor <;> omega

def raw (item : BufferItem) : RawItem :=
  ⟨item.ops.map Op.data, 1 + item.runs.length⟩

theorem raw_format (item : BufferItem) : item.raw.format = item.formatOp := rfl

theorem raw_tail (item : BufferItem) :
    item.raw.regions.tail = item.runs.map fun run =>
      slice item.data (run.1 * blfChunk) (run.2 * blfChunk) := by
  simp [raw, ops, Function.comp_def]

theorem formatOp_length (item : BufferItem) :
    item.formatOp.length = blfHeaderSize + 4 * item.dirty.length := by
  have hmap : (item.dirty.flatMap (leBytes 4)).length = 4 * item.dirty.length := by
    induction item.dirty with
    | nil => rfl
    | cons w ws ih =>
      rw [List.flatMap_cons, List.length_append, ih, leBytes_length, List.length_cons]
      omega
  simp [formatOp, hmap, blfHeaderSize]
  omega

theorem raw_kind (item : BufferItem) : item.raw.kind = xfsLiBuf := by
  rfl

theorem raw_blfFlags (item : BufferItem) :
    item.raw.blfFlags = (item.flags ||| item.bufType * 2 ^ 11) % 256 ^ 2 :=
  leValue_leBytes 2 _

theorem raw_len (h : item.Describable) :
    item.raw.field 6 2 = item.data.length / 512 :=
  (leValue_leBytes 2 _).trans (Nat.mod_eq_of_lt (lt_of_lt_of_eq h.2 (by norm_num)))

theorem raw_blkno (h : item.blkno < 2 ^ 64) :
    item.raw.field 8 8 = item.blkno :=
  (leValue_leBytes 8 _).trans (Nat.mod_eq_of_lt (lt_of_lt_of_eq h (by norm_num)))

theorem raw_mapSize (h : item.dirty.length < 2 ^ 32) :
    item.raw.field 16 4 = item.dirty.length :=
  (leValue_leBytes 4 _).trans (Nat.mod_eq_of_lt (lt_of_lt_of_eq h (by norm_num)))

theorem mapOf_raw (h : ∀ w ∈ item.dirty, w < 2 ^ 32) :
    mapOf item.raw item.dirty.length = item.dirty := by
  apply List.ext_getElem
  · simp [mapOf]
  · intro i hi hlt
    have hword : item.raw.field (blfHeaderSize + 4 * i) 4 = item.dirty[i] := by
      rw [RawItem.field, raw_format, formatOp, slice_append_right (by simp [blfHeaderSize])]
      have hoff : blfHeaderSize + 4 * i - (leBytes 2 xfsLiBuf ++ leBytes 2 (1 + item.runs.length) ++
          leBytes 2 (item.flags ||| item.bufType * 2 ^ 11) ++ leBytes 2 (item.data.length / 512) ++
          leBytes 8 item.blkno ++ leBytes 4 item.dirty.length).length = 4 * i := by
        simp [blfHeaderSize]
      rw [hoff, slice_flatMap (leBytes_length 4) _ hlt]
      exact leValue_leBytes_of_lt (h _ (List.getElem_mem hlt))
    simpa [mapOf] using hword

theorem gather_ops (h : item.Describable) :
    (item.ops.map Op.data).foldl addRegion [] = [item.raw] := by
  have hlong : 4 ≤ item.formatOp.length := by
    rw [formatOp_length]
    simp only [blfHeaderSize]
    omega
  have hcount : leValue (slice item.formatOp 2 2) = 1 + item.runs.length :=
    (leValue_leBytes 2 _).trans (Nat.mod_eq_of_lt (lt_of_lt_of_eq h.1 (by norm_num)))
  have hnew : newItem item.formatOp = ⟨[item.formatOp], 1 + item.runs.length⟩ := by
    rw [newItem, if_pos hlong, hcount]
    congr 1
    omega
  have hfirst : addRegion [] item.formatOp = [newItem item.formatOp] := rfl
  have hrest := foldl_addRegion_open [] ⟨[item.formatOp], 1 + item.runs.length⟩
    (item.raw.regions.tail) (by rw [raw_tail]; simp)
  rw [ops, List.map_cons, List.foldl_cons, hfirst, hnew]
  exact hrest

end BufferItem

/-! ## The two tables -/

def loggedTypes : List ℕ :=
  [blftBtree, blftAgf, blftAgfl, blftAgi, blftSymlink, blftDirBlock, blftDirData, blftDirFree,
    blftDirLeaf1, blftDirLeafn, blftDaNode, blftAttrLeaf, blftSb]

/-- A block of a v5 volume: a tree block is not the v4 block map's, and a superblock gives version
five. -/
def V5Block (bufType : ℕ) (data : List UInt8) : Prop :=
  (bufType = blftBtree → beValue (slice data 0 4) ≠ xfsBmapMagic) ∧
    (bufType = blftSb → beValue (slice data 100 2) % 16 = 5)

instance (bufType : ℕ) (data : List UInt8) : Decidable (V5Block bufType data) :=
  inferInstanceAs (Decidable (_ ∧ _))

theorem crcOffset_eq {data : List UInt8} (htype : bufType ∈ loggedTypes)
    (hblock : V5Block bufType data) (hlen : 512 ≤ data.length) :
    crcOffset bufType data = writtenCrcOffset bufType data := by
  have hfour : 4 ≤ data.length := by omega
  have hversion : 100 + 1 < data.length := by omega
  obtain ⟨hbtree, hsb⟩ := hblock
  simp only [loggedTypes, List.mem_cons, List.not_mem_nil, or_false] at htype
  rcases htype with rfl | rfl | rfl | rfl | rfl | rfl | rfl | rfl | rfl | rfl | rfl | rfl | rfl
  case inl =>
    have hmagic := hbtree rfl
    by_cases hcrc : beValue (slice data 0 4) = xfsBmapCrcMagic <;>
      simp [crcOffset, writtenCrcOffset, btreeIsLongForm, hfour, hcrc, hmagic, blftBtree, blftAgf,
        blftAgi, blftAgfl]
  all_goals
    simp [crcOffset, writtenCrcOffset, blftBtree, blftAgf, blftAgfl, blftAgi, blftSymlink,
      blftDirBlock, blftDirData, blftDirFree, blftDirLeaf1, blftDirLeafn, blftDaNode,
      blftAttrLeaf, blftSb]
  exact ⟨hversion, hsb rfl⟩

/-! ## Replay and overlay -/

theorem loggedTypes_spec : ∀ t ∈ loggedTypes, t < 2 ^ 5 ∧ t ≠ blftDino := by
  decide

section

variable {crc32c : List UInt8 → ℕ} {sb : Superblock} {blkno bufType : ℕ}
  {before after : List UInt8} {item : BufferItem}

theorem blfFlags_changed (htype : bufType ∈ loggedTypes)
    (hitem : changedChunks blkno before after bufType = .ok item) :
    item.raw.blfFlags = bufType * 2 ^ 11 := by
  obtain ⟨-, -, -, hshape, -⟩ := changedChunks_spec hitem
  have hlt := (loggedTypes_spec bufType htype).1
  rw [BufferItem.raw_blfFlags, hshape, Nat.zero_or]
  apply Nat.mod_eq_of_lt
  calc bufType * 2 ^ 11 < 2 ^ 5 * 2 ^ 11 := Nat.mul_lt_mul_of_pos_right hlt (by decide)
    _ = 256 ^ 2 := by norm_num

theorem restoredBuffer_changed (hv5 : sb.isV5 = true) (htype : bufType ∈ loggedTypes)
    (hblock : V5Block bufType after)
    (hitem : changedChunks blkno before after bufType = .ok item)
    (hmap : item.dirty.length < 2 ^ 32) :
    restoredBuffer crc32c sb item.raw before = imageAsWritten crc32c item := by
  obtain ⟨hlen, hwhole, hne, hshape, hwords, hsmall, hbits⟩ := changedChunks_spec hitem
  have hdata : item.data = after := by rw [hshape]
  have hbuftype : item.bufType = bufType := by rw [hshape]
  have hsize : 512 ≤ after.length := by
    have hpos : 0 < after.length := List.length_pos_iff.mpr hne
    omega
  have hflags := blfFlags_changed htype hitem
  have hplain : (bufType * 2 ^ 11).testBit 0 = false := by
    rw [Nat.testBit_mul_two_pow]
    rfl
  have hshift : bufType * 2 ^ 11 / 2 ^ 11 = bufType := Nat.mul_div_cancel _ (by decide)
  have hruns : runsOf (mapOf item.raw (item.raw.field 16 4)) (before.length / blfChunk) =
      item.runs := by
    rw [BufferItem.raw_mapSize hmap, BufferItem.mapOf_raw hsmall, BufferItem.runs, hdata, hlen]
    congr 1
    simp only [divCeil, blfChunk]
    omega
  have hcopied := copyRuns_changed hitem
  rw [restoredBuffer, hflags, hruns, BufferItem.raw_tail, hdata, hplain, hshift]
  simp only [Bool.false_eq_true, if_false]
  rw [hcopied, stamp, hv5, if_neg (by decide), if_neg (loggedTypes_spec bufType htype).2,
    crcOffset_eq htype hblock hsize]
  cases hat : writtenCrcOffset bufType after with
  | some at_ => simp only [imageAsWritten, hbuftype, hdata, hat]
  | none => simp only [imageAsWritten, hbuftype, hdata, hat]

/-- Replaying the item of a diff over the block it was taken from leaves in the overlay the image
the mount put there when it logged the item. -/
theorem restore_changedChunks {st : Replaying} (hv5 : sb.isV5 = true)
    (htype : bufType ∈ loggedTypes) (hblock : V5Block bufType after)
    (hitem : changedChunks blkno before after bufType = .ok item) (hdesc : item.Describable)
    (hbefore : st.readAt (blkno * 512) after.length = .ok before) :
    (item.ops.map Op.data).foldl addRegion [] = [item.raw] ∧
      restore crc32c sb st item.raw = .ok { st with
        into := st.into.wrote st.device.byte blkno (imageAsWritten crc32c item)
        buffers := st.buffers + 1 } := by
  refine ⟨BufferItem.gather_ops hdesc, ?_⟩
  obtain ⟨hlen, hwhole, hne, hshape, hwords, hsmall, hbits⟩ := changedChunks_spec hitem
  have hdata : item.data = after := by rw [hshape]
  have hblkno : item.blkno = blkno := by rw [hshape]
  have hpos : 0 < after.length := List.length_pos_iff.mpr hne
  have hdevice : blkno * 512 + after.length ≤ st.device.size := by
    rw [Replaying.readAt, Overlay.readAt] at hbefore
    obtain ⟨bytes, hread, -⟩ := bind_eq_ok.mp hbefore
    exact (Device.readAt_length hread).2
  have hsize := st.device.size_lt
  have hmap : item.dirty.length < 2 ^ 32 := by
    rw [hwords]
    simp only [divCeil, BufferItem.chunkCount, blfChunk]
    have hfit := hdesc.2
    rw [hdata] at hfit
    omega
  have hshort : ¬item.raw.format.length < blfHeaderSize := by
    rw [BufferItem.raw_format, BufferItem.formatOp_length]
    omega
  have hfits : ¬item.raw.format.length < blfHeaderSize + 4 * item.dirty.length := by
    rw [BufferItem.raw_format, BufferItem.formatOp_length]
    omega
  have haddress : wrap64 (blkno * 512) = blkno * 512 := Nat.mod_eq_of_lt (by omega)
  have hbytes : after.length / 512 * 512 = after.length := by omega
  rw [restore, if_pos item.raw_kind, if_neg hshort, restoreBuffer, BufferItem.raw_len hdesc,
    BufferItem.raw_mapSize hmap, BufferItem.raw_blkno (by omega), hdata, hblkno, haddress, hbytes,
    if_neg (by omega), if_neg hfits]
  have hwrote : st.wrote (blkno * 512) (restoredBuffer crc32c sb item.raw before) =
      .ok { st with into := st.into.wrote st.device.byte blkno (imageAsWritten crc32c item) } := by
    rw [Replaying.wrote, if_pos (Nat.mul_mod_left _ _), Nat.mul_div_cancel _ (by decide),
      restoredBuffer_changed hv5 htype hblock hitem hmap]
  change (st.readAt (blkno * 512) after.length >>= _) = _
  rw [hbefore]
  change (st.wrote (blkno * 512) (restoredBuffer crc32c sb item.raw before) >>= _) = _
  rw [hwrote]
  rfl

end

def blankHeader : List UInt8 :=
  List.replicate 512 0

def countedHeader : List UInt8 :=
  patch blankHeader 52 (beBytes 4 1000)

def countedItem : BufferItem :=
  ⟨1, blftAgf, 0, countedHeader, [1]⟩

def blankReplay : Replaying where
  device := { size := 65536, byte := fun _ => 0 }
  into := .empty

theorem restore_countedItem :
    (countedItem.ops.map Op.data).foldl addRegion [] = [countedItem.raw] ∧
      restore (fun _ => 7) twoGroups blankReplay countedItem.raw = .ok { blankReplay with
        into := Overlay.empty.wrote (fun _ => 0) 1 (imageAsWritten (fun _ => 7) countedItem)
        buffers := 1 } := by
  have hitem : changedChunks 1 blankHeader countedHeader blftAgf = .ok countedItem := by rfl
  have hbefore : blankReplay.readAt (1 * 512) countedHeader.length = .ok blankHeader := by rfl
  exact restore_changedChunks rfl (by decide) (by decide) hitem
    (BufferItem.describable_of_block (by decide)) hbefore

end FsXfs.Log
