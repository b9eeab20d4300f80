import FsXfs.Log.Recover

/-!
# Buffer log items

The bytes a plain buffer item is logged as (`buf_write.rs`) and what a replay reads out of them
(`log_recover.rs`): a format operation with a bitmap of the buffer's 128-byte chunks, then one
operation for each run of set bits. `decodeBuffers` is a decoder in the sense of `Log.Recover`;
items of any other kind are passed over, as a replay that defers them does. Inode clusters, which a
replay takes only one field from, and the checksum a replay restamps are left out.
-/

namespace FsXfs.Log

open Bytes

set_option autoImplicit false

abbrev xfsLiBuf : ℕ := 0x123c
abbrev blfChunk : ℕ := 128
abbrev blfHeaderSize : ℕ := 20
abbrev blfCancel : ℕ := 0x002

/-! ## Runs of set bits -/

def bitSet (map : List ℕ) (bit : ℕ) : Bool :=
  (map.getD (bit / 32) 0).testBit (bit % 32)

def runEnd (map : List ℕ) (end_ : ℕ) : ℕ → ℕ → ℕ
  | 0, bit => bit
  | fuel + 1, bit => if bit < end_ ∧ bitSet map bit then runEnd map end_ fuel (bit + 1) else bit

def runsFrom (map : List ℕ) (end_ : ℕ) : ℕ → ℕ → List (ℕ × ℕ)
  | 0, _ => []
  | fuel + 1, bit =>
    if bit < end_ then
      if bitSet map bit then
        let stop := runEnd map end_ end_ bit
        (bit, stop - bit) :: runsFrom map end_ fuel stop
      else
        runsFrom map end_ fuel (bit + 1)
    else
      []

def runsOf (map : List ℕ) (chunks : ℕ) : List (ℕ × ℕ) :=
  let end_ := min (map.length * 32) chunks
  runsFrom map end_ (end_ + 1) 0

theorem runEnd_spec (map : List ℕ) (end_ : ℕ) {fuel bit : ℕ} (hfuel : end_ ≤ bit + fuel) :
    bit ≤ runEnd map end_ fuel bit ∧
      (∀ c, bit ≤ c → c < runEnd map end_ fuel bit → c < end_ ∧ bitSet map c = true) ∧
      (runEnd map end_ fuel bit < end_ → bitSet map (runEnd map end_ fuel bit) = false) := by
  induction fuel generalizing bit with
  | zero =>
    rw [runEnd]
    exact ⟨le_refl _, fun c hle hlt => by omega, fun hlt => by omega⟩
  | succ fuel ih =>
    rw [runEnd]
    split
    · next hset =>
      obtain ⟨hle, hbits, hstop⟩ := @ih (bit + 1) (by omega)
      refine ⟨by omega, fun c hc hlt => ?_, hstop⟩
      rcases Nat.eq_or_lt_of_le hc with rfl | hc
      · exact hset
      · exact hbits c hc hlt
    · next hclear =>
      refine ⟨le_refl _, fun c hle hlt => by omega, fun hlt => ?_⟩
      simpa using fun hbit => hclear ⟨hlt, hbit⟩

def InRun (run : ℕ × ℕ) (c : ℕ) : Prop :=
  run.1 ≤ c ∧ c < run.1 + run.2

instance (run : ℕ × ℕ) (c : ℕ) : Decidable (InRun run c) :=
  inferInstanceAs (Decidable (_ ∧ _))

theorem runsFrom_spec (map : List ℕ) (end_ : ℕ) {fuel bit : ℕ} (hfuel : end_ ≤ bit + fuel) :
    (∀ run ∈ runsFrom map end_ fuel bit, bit ≤ run.1 ∧ run.1 + run.2 ≤ end_ ∧ 0 < run.2) ∧
      ∀ c, bit ≤ c → c < end_ →
        (bitSet map c = true ↔ ∃ run ∈ runsFrom map end_ fuel bit, InRun run c) := by
  induction fuel generalizing bit with
  | zero => exact ⟨fun run h => absurd h (by simp [runsFrom]), fun c hle hlt => by omega⟩
  | succ fuel ih =>
    rw [runsFrom]
    split
    · next hbit =>
      split
      · next hset =>
        obtain ⟨hle, hbits, hstop⟩ := @runEnd_spec map end_ end_ bit (Nat.le_add_left end_ bit)
        set stop := runEnd map end_ end_ bit with hdef
        have hlt : bit < stop := by
          rcases Nat.eq_or_lt_of_le hle with heq | hlt
          · rw [← heq] at hstop
            rw [hstop hbit] at hset
            cases hset
          · exact hlt
        have hend : stop ≤ end_ := by
          have h := (hbits (stop - 1) (by omega) (by omega)).1
          omega
        obtain ⟨hinside, hcover⟩ := @ih stop (by omega)
        refine ⟨fun run hrun => ?_, fun c hc hlast => ?_⟩
        · rcases List.mem_cons.mp hrun with rfl | hrun
          · exact ⟨le_refl _, by simp only; omega, by simp only; omega⟩
          · obtain ⟨hstart, hrest⟩ := hinside run hrun
            exact ⟨by omega, hrest⟩
        · by_cases hfirst : c < stop
          · simp only [(hbits c hc hfirst).2, true_iff]
            exact ⟨_, List.mem_cons_self, hc, by simp only; omega⟩
          · rw [hcover c (by omega) hlast]
            constructor
            · rintro ⟨run, hrun, hin⟩
              exact ⟨run, List.mem_cons_of_mem _ hrun, hin⟩
            · rintro ⟨run, hrun, hin⟩
              rcases List.mem_cons.mp hrun with rfl | hrun
              · have h := hin.2
                omega
              · exact ⟨run, hrun, hin⟩
      · next hclear =>
        obtain ⟨hinside, hcover⟩ := @ih (bit + 1) (by omega)
        refine ⟨fun run hrun => ?_, fun c hc hlast => ?_⟩
        · obtain ⟨hstart, hrest⟩ := hinside run hrun
          exact ⟨by omega, hrest⟩
        · rcases Nat.eq_or_lt_of_le hc with rfl | hc
          · refine iff_of_false hclear ?_
            rintro ⟨run, hrun, hin⟩
            have hstart := (hinside run hrun).1
            have hle := hin.1
            omega
          · exact hcover c hc hlast
    · exact ⟨fun run h => absurd h (by simp), fun c hle hlt => by omega⟩

theorem runsFrom_length (map : List ℕ) (end_ fuel bit : ℕ) :
    (runsFrom map end_ fuel bit).length ≤ end_ - bit := by
  induction fuel generalizing bit with
  | zero => exact Nat.zero_le _
  | succ fuel ih =>
    rw [runsFrom]
    split
    · next hbit =>
      split
      · next hset =>
        obtain ⟨hle, -, hstop⟩ := @runEnd_spec map end_ end_ bit (Nat.le_add_left end_ bit)
        have hlt : bit < runEnd map end_ end_ bit := by
          rcases Nat.eq_or_lt_of_le hle with heq | hlt
          · rw [← heq] at hstop
            rw [hstop hbit] at hset
            cases hset
          · exact hlt
        have hrest := ih (runEnd map end_ end_ bit)
        simp only [List.length_cons]
        omega
      · have hrest := ih (bit + 1)
        omega
    · exact Nat.zero_le _

theorem runsOf_length (map : List ℕ) (chunks : ℕ) : (runsOf map chunks).length ≤ chunks :=
  (runsFrom_length map _ _ 0).trans (Nat.min_le_right _ _)

theorem runsOf_spec {map : List ℕ} {chunks : ℕ} (h : chunks ≤ map.length * 32) :
    (∀ run ∈ runsOf map chunks, run.1 + run.2 ≤ chunks ∧ 0 < run.2) ∧
      ∀ c, c < chunks → (bitSet map c = true ↔ ∃ run ∈ runsOf map chunks, InRun run c) := by
  have hend : min (map.length * 32) chunks = chunks := Nat.min_eq_right h
  have hruns : runsOf map chunks = runsFrom map chunks (chunks + 1) 0 := by
    rw [runsOf]
    simp only [hend]
  obtain ⟨hinside, hcover⟩ := @runsFrom_spec map chunks (chunks + 1) 0 (by omega)
  rw [hruns]
  exact ⟨fun run hrun => (hinside run hrun).2, fun c hlt => hcover c (Nat.zero_le c) hlt⟩

/-! ## Writing -/

-- `buf_write::BufferItem`: `dirty` is the bitmap, 32 chunks to a word
structure BufferItem where
  blkno : ℕ
  bufType : ℕ
  flags : ℕ
  data : List UInt8
  dirty : List ℕ
  deriving DecidableEq, Repr

namespace BufferItem

def runs (item : BufferItem) : List (ℕ × ℕ) :=
  runsOf item.dirty (divCeil item.data.length blfChunk)

def formatOp (item : BufferItem) : List UInt8 :=
  leBytes 2 xfsLiBuf ++ leBytes 2 (1 + item.runs.length) ++
    leBytes 2 (item.flags ||| item.bufType * 2 ^ 11) ++ leBytes 2 (item.data.length / 512) ++
    leBytes 8 item.blkno ++ leBytes 4 item.dirty.length ++ item.dirty.flatMap (leBytes 4)

def ops (item : BufferItem) : List Op :=
  ⟨0, item.formatOp⟩ :: item.runs.map fun run =>
    ⟨0, slice item.data (run.1 * blfChunk) (run.2 * blfChunk)⟩

-- no chunk is dirty, so the data it is given is never logged
def cancel (blkno lenBlocks : ℕ) : BufferItem where
  blkno := blkno
  bufType := 0
  flags := blfCancel
  data := List.replicate (lenBlocks * 512) 0
  dirty := List.replicate (divCeil (divCeil (lenBlocks * 512) blfChunk) 32) 0

end BufferItem

/-! ## Reading -/

-- `log_recover::Item`: the regions gathered so far, and how many there are to be
structure RawItem where
  regions : List (List UInt8)
  total : ℕ
  deriving DecidableEq, Repr

def newItem (body : List UInt8) : RawItem where
  regions := [body]
  total := max 1 (if 4 ≤ body.length then leValue (slice body 2 2) else 1)

def addRegion (items : List RawItem) (body : List UInt8) : List RawItem :=
  match items.getLast? with
  | some item =>
    if item.regions.length < item.total then
      items.dropLast ++ [{ item with regions := item.regions ++ [body] }]
    else
      items ++ [newItem body]
  | none => [newItem body]

theorem addRegion_ne_nil (items : List RawItem) (body : List UInt8) :
    addRegion items body ≠ [] := by
  unfold addRegion
  split
  · split <;> simp
  · simp

theorem addRegion_full {items : List RawItem} (body : List UInt8)
    (h : ∀ item ∈ items.getLast?, item.total ≤ item.regions.length) :
    addRegion items body = items ++ [newItem body] := by
  unfold addRegion
  split
  · next item hlast =>
    rw [if_neg (Nat.not_lt.mpr (h item hlast))]
  · next hnone =>
    rw [List.getLast?_eq_none_iff.mp hnone]
    rfl

theorem foldl_addRegion_open (items : List RawItem) (item : RawItem) (regions : List (List UInt8))
    (h : item.regions.length + regions.length ≤ item.total) :
    regions.foldl addRegion (items ++ [item]) =
      items ++ [{ item with regions := item.regions ++ regions }] := by
  induction regions generalizing item with
  | nil => simp
  | cons body regions ih =>
    rw [List.length_cons] at h
    have hopen : item.regions.length < item.total := by omega
    simp only [List.foldl_cons, addRegion, List.getLast?_concat, hopen, if_true, List.dropLast_concat]
    rw [ih]
    · simp
    · simp only [List.length_append, List.length_singleton]
      omega

def decodeBuffer (raw : RawItem) : Option Item :=
  let f := raw.regions.headD []
  let flags := leValue (slice f 4 2)
  let len := leValue (slice f 6 2)
  let blkno := leValue (slice f 8 8)
  let mapSize := leValue (slice f 16 4)
  if leValue (slice f 0 2) ≠ xfsLiBuf ∨ f.length < blfHeaderSize then none
  else if flags.testBit 1 then some ⟨blkno, len, true, blkno, 0, []⟩
  else if len = 0 ∨ f.length < blfHeaderSize + 4 * mapSize then none
  else
    let map := (List.range mapSize).map fun i => leValue (slice f (blfHeaderSize + 4 * i) 4)
    let runs := runsOf map (len * 512 / blfChunk)
    some ⟨blkno, len, false, blkno, len * 512, (runs.zip raw.regions.tail).map fun (run, region) =>
      (run.1 * blfChunk, region.take (min (run.2 * blfChunk) (len * 512 - run.1 * blfChunk)))⟩

def decodeBuffers (regions : List (List UInt8)) : List Item :=
  (regions.foldl addRegion []).filterMap decodeBuffer

/-! ## A buffer logged whole -/

def wholeBuffer (blkno : ℕ) (data : List UInt8) : BufferItem where
  blkno := blkno
  bufType := 0
  flags := 0
  data := data
  dirty := [2 ^ 32 - 1]

variable {data : List UInt8}

section

variable (blkno : ℕ) (h : data.length = 4096)

include blkno h

theorem wholeBuffer_runs :
    (wholeBuffer blkno data).runs = [(0, 32)] := by
  change runsOf [2 ^ 32 - 1] (divCeil data.length blfChunk) = _
  rw [h]
  decide

theorem wholeBuffer_formatOp :
    (wholeBuffer blkno data).formatOp =
      leBytes 2 xfsLiBuf ++ leBytes 2 2 ++ leBytes 2 0 ++ leBytes 2 8 ++ leBytes 8 blkno ++
        leBytes 4 1 ++ leBytes 4 (2 ^ 32 - 1) := by
  have hlen : data.length / 512 = 8 := by rw [h]
  rw [BufferItem.formatOp, wholeBuffer_runs blkno h]
  change _ ++ leBytes 2 (data.length / 512) ++ _ ++ _ ++ [2 ^ 32 - 1].flatMap (leBytes 4) = _
  rw [hlen, List.flatMap_singleton]
  simp [wholeBuffer]

theorem wholeBuffer_ops :
    (wholeBuffer blkno data).ops = [⟨0, (wholeBuffer blkno data).formatOp⟩, ⟨0, data⟩] := by
  have hdata : slice data (0 * blfChunk) (32 * blfChunk) = data := slice_all h
  rw [BufferItem.ops, wholeBuffer_runs blkno h, List.map_singleton]
  change [_, (⟨0, slice data (0 * blfChunk) (32 * blfChunk)⟩ : Op)] = _
  rw [hdata]

theorem decodeBuffer_whole :
    decodeBuffer ⟨[(wholeBuffer blkno data).formatOp, data], 2⟩ =
      some ⟨blkno % 256 ^ 8, 8, false, blkno % 256 ^ 8, 4096, [(0, data)]⟩ := by
  have hmap : runsOf ((List.range 1).map fun _ => 2 ^ 32 - 1) (8 * 512 / blfChunk) = [(0, 32)] := by
    decide
  rw [wholeBuffer_formatOp blkno h]
  generalize hf : leBytes 2 xfsLiBuf ++ leBytes 2 2 ++ leBytes 2 0 ++ leBytes 2 8 ++
    leBytes 8 blkno ++ leBytes 4 1 ++ leBytes 4 (2 ^ 32 - 1) = f
  have hlen : f.length = 24 := by simp [← hf]
  have htype : leValue (slice f 0 2) = xfsLiBuf := by subst hf; rfl
  have hflags : leValue (slice f 4 2) = 0 := by subst hf; rfl
  have hcount : leValue (slice f 6 2) = 8 := by subst hf; rfl
  have hblkno : leValue (slice f 8 8) = blkno % 256 ^ 8 := by
    rw [← leValue_leBytes]
    subst hf
    rfl
  have hwords : leValue (slice f 16 4) = 1 := by subst hf; rfl
  have hword : ∀ i ∈ List.range 1, leValue (slice f (blfHeaderSize + 4 * i) 4) = 2 ^ 32 - 1 := by
    intro i hi
    obtain rfl : i = 0 := by simpa using hi
    subst hf
    rfl
  simp only [decodeBuffer, List.headD_cons, htype, hflags, hcount, hblkno, hwords, hlen,
    List.map_congr_left hword, hmap]
  simp [blfHeaderSize, blfChunk, h]

theorem decodeBuffers_whole :
    decodeBuffers ((wholeBuffer blkno data).ops.map Op.data) =
      [⟨blkno % 256 ^ 8, 8, false, blkno % 256 ^ 8, 4096, [(0, data)]⟩] := by
  have hnew : newItem (wholeBuffer blkno data).formatOp =
      ⟨[(wholeBuffer blkno data).formatOp], 2⟩ := by
    rw [wholeBuffer_formatOp blkno h]
    rfl
  have hgather : [(wholeBuffer blkno data).formatOp, data].foldl addRegion [] =
      [⟨[(wholeBuffer blkno data).formatOp, data], 2⟩] := by
    simp [addRegion, hnew]
  rw [wholeBuffer_ops blkno h]
  change ([(wholeBuffer blkno data).formatOp, data].foldl addRegion []).filterMap _ = _
  rw [hgather, List.filterMap_cons, decodeBuffer_whole blkno h]
  rfl

end

end FsXfs.Log
