import FsXfs.Log.Items

/-!
# Reading records back

`log_recover.rs` on a record's bytes: the displaced first word of each block is put back (`unpack`),
the payload is split into operations (`read_ops`), and operations are gathered into items and items
into transactions (`add_region`).
-/

namespace FsXfs.Log

open Bytes

set_option autoImplicit false
set_option maxRecDepth 8192

/-! ## A record's header -/

def headerBlocksOf (header : List UInt8) : ℕ :=
  let version := beValue (slice header 8 4)
  let size := beValue (slice header 320 4)
  if !version.testBit 1 then 1
  else if size ≤ xlogHeaderCycleSize then 1
  else divCeil size xlogHeaderCycleSize

section

variable (crc32c : List UInt8 → ℕ)

-- `record_checksum`, with the cycle-data structs of the further header blocks a payload needs
def recordChecksum (headers data : List UInt8) : ℕ :=
  let further :=
    if (beValue (slice headers 8 4)).testBit 1 then
      (List.range' 1 (divCeil data.length xlogHeaderCycleSize - 1)).flatMap fun block =>
        slice headers (block * 512) 260
    else []
  crc32c (patch (headers.take 328) 32 [0, 0, 0, 0] ++ further ++ data) % 2 ^ 32

def checkRecord (headers : List UInt8) (headerBlocks : ℕ) (data : List UInt8) (at_ : ℕ) :
    Except Error Unit :=
  let stored := leValue (slice headers 32 4)
  if stored = 0 then .ok ()
  else if (beValue (slice headers 8 4)).testBit 1 ∧
      headerBlocks < divCeil data.length xlogHeaderCycleSize then
    .error (.corruptLog s!"the log record at basic block {at_} has too few cycle-data headers")
  else if recordChecksum crc32c headers data ≠ stored then
    .error (.corruptLog s!"the log record at basic block {at_} says its checksum is {stored} and its contents give {recordChecksum crc32c headers data}")
  else .ok ()

end

def wordOffset (headerBlocks i : ℕ) : Option ℕ :=
  if i < xlogCycleDataEntries then some (44 + 4 * i)
  else if headerBlocks ≤ i / xlogCycleDataEntries then none
  else some (i / xlogCycleDataEntries * 512 + 4 + 4 * (i % xlogCycleDataEntries))

def unpackBlocks (headers : List UInt8) (headerBlocks : ℕ) : List ℕ → List UInt8 → List UInt8
  | [], data => data
  | i :: rest, data =>
    match wordOffset headerBlocks i with
    | none => data
    | some word =>
      unpackBlocks headers headerBlocks rest (patch data (i * 512) (slice headers word 4))

def unpack (headers : List UInt8) (headerBlocks : ℕ) (data : List UInt8) (len : ℕ) : List UInt8 :=
  (unpackBlocks headers headerBlocks (List.range (data.length / 512)) data).take len

/-! ## Operations into items -/

abbrev OpenItems := AList fun _ : ℕ => List RawItem

def isHeaderBody (body : List UInt8) : Bool :=
  decide (16 ≤ body.length) && decide (leValue (slice body 0 4) = xfsTransHeaderMagic)

def extendLast (items : List RawItem) (body : List UInt8) : List RawItem :=
  match items.getLast? with
  | some item =>
    match item.regions.getLast? with
    | some region => items.dropLast ++ [{ item with regions := item.regions.dropLast ++ [region ++ body] }]
    | none => items
  | none => items

-- `add_region`; `XLOG_OP_CONTINUATION` is bits 3 and 4
def addOp (items : List RawItem) (body : List UInt8) (flags : ℕ) : List RawItem :=
  if flags.testBit 3 ∨ flags.testBit 4 then extendLast items body
  else if body = [] then items
  else if items = [] ∧ isHeaderBody body then items
  else addRegion items body

-- one operation of `read_ops`, over the open transactions and those handed on
def takeOp (tid : ℕ) (st : OpenItems × List (List RawItem)) (op : Op) :
    OpenItems × List (List RawItem) :=
  if op.isUnmount then st
  else if op.isStart then (st.1.insert tid [], st.2)
  else if op.isCommit then
    match st.1.lookup tid with
    | some items => (st.1.erase tid, if items = [] then st.2 else st.2 ++ [items])
    | none => st
  else
    match st.1.lookup tid with
    | some items => (st.1.insert tid (addOp items op.data op.flags), st.2)
    | none => st

def readOpsFrom : ℕ → List UInt8 → OpenItems × List (List RawItem) →
    Except Error (OpenItems × List (List RawItem))
  | 0, _, st => .ok st
  | count + 1, data, st =>
    if data.length < opHeaderSize then
      .error (.corruptLog "a log record holds fewer operations than its header counts")
    else
      let tid := beValue (slice data 0 4)
      let len := beValue (slice data 4 4)
      let flags := (data.getD 9 0).toNat
      let rest := data.drop opHeaderSize
      if rest.length < len then
        .error (.corruptLog s!"a log operation claims {len} bytes, which runs past the record holding it")
      else readOpsFrom count (rest.drop len) (takeOp tid st ⟨flags, rest.take len⟩)

section

variable (crc32c : List UInt8 → ℕ)

/-- One turn of `walk`, on the bytes from the record's first block. -/
def readRecord (at_ : ℕ) (bytes : List UInt8) (st : OpenItems × List (List RawItem)) :
    Except Error (OpenItems × List (List RawItem)) := do
  let header := slice bytes 0 512
  let headerBlocks := headerBlocksOf header
  let len := beValue (slice header 12 4)
  let raw := slice bytes (headerBlocks * 512) (divCeil len 512 * 512)
  let headers := slice bytes 0 (headerBlocks * 512)
  checkRecord crc32c headers headerBlocks (raw.take len) at_
  readOpsFrom (beValue (slice header 40 4)) (unpack headers headerBlocks raw len) st

end

/-! ## The header as it was written -/

section

variable (uuid : List UInt8) (r : LogRecord) (cycleData : List UInt8) (crc : ℕ)

def headerFront : List UInt8 :=
  beBytes 4 xlogHeaderMagic ++ beBytes 4 r.cycle ++ beBytes 4 2 ++ beBytes 4 r.len ++
    beBytes 8 r.lsn ++ beBytes 8 r.tailLsn

def headerBack : List UInt8 :=
  beBytes 4 r.prevBlock ++ beBytes 4 r.ops.length ++ cycleData.takeD 256 0 ++ beBytes 4 1 ++
    uuid.takeD 16 0 ++ beBytes 4 r.iclogSize ++ List.replicate 188 0

theorem headerFront_length : (headerFront r).length = 32 := by
  simp [headerFront]

theorem headerBytes_eq :
    headerBytes uuid r cycleData crc =
      headerFront r ++ (leBytes 4 crc ++ headerBack uuid r cycleData) := by
  simp only [headerBytes, headerFront, headerBack, List.append_assoc]

theorem header_version : beValue (slice (headerBytes uuid r cycleData crc) 8 4) = 2 := by
  rw [headerBytes_eq, slice_append_left (by rw [headerFront_length]; decide)]
  exact beValue_beBytes 4 2

theorem header_len : beValue (slice (headerBytes uuid r cycleData crc) 12 4) = r.len % 256 ^ 4 := by
  rw [headerBytes_eq, slice_append_left (by rw [headerFront_length]; decide)]
  exact beValue_beBytes 4 r.len

theorem header_crc : leValue (slice (headerBytes uuid r cycleData crc) 32 4) = crc % 256 ^ 4 := by
  rw [headerBytes_eq, slice_append_right (by rw [headerFront_length]), headerFront_length]
  exact leValue_leBytes 4 crc

theorem header_numLogops :
    beValue (slice (headerBytes uuid r cycleData crc) 40 4) = r.ops.length % 256 ^ 4 := by
  rw [headerBytes_eq, slice_append_right (by rw [headerFront_length]; decide), headerFront_length]
  exact beValue_beBytes 4 r.ops.length

theorem slice_headerBytes {at_ n : ℕ} (h : 44 ≤ at_) :
    slice (headerBytes uuid r cycleData crc) at_ n =
      slice (cycleData.takeD 256 0 ++ (beBytes 4 1 ++ (uuid.takeD 16 0 ++ (beBytes 4 r.iclogSize ++
        List.replicate 188 0)))) (at_ - 44) n := by
  have hcounts : (beBytes 4 r.prevBlock ++ beBytes 4 r.ops.length).length = 8 := by simp
  rw [headerBytes_eq, slice_append_right (by rw [headerFront_length]; omega), headerFront_length,
    slice_append_right (by rw [leBytes_length]; omega), leBytes_length, headerBack]
  simp only [List.append_assoc]
  rw [← List.append_assoc (beBytes 4 r.prevBlock), slice_append_right (by rw [hcounts]; omega),
    hcounts]
  congr 1

theorem header_word {k : ℕ} (h : 4 * k + 4 ≤ 256) :
    slice (headerBytes uuid r cycleData crc) (44 + 4 * k) 4 =
      slice (cycleData.takeD 256 0) (4 * k) 4 := by
  rw [slice_headerBytes _ _ _ _ (by omega), Nat.add_sub_cancel_left,
    slice_append_left (by rw [List.takeD_length]; omega)]

theorem header_size :
    beValue (slice (headerBytes uuid r cycleData crc) 320 4) = r.iclogSize % 256 ^ 4 := by
  rw [slice_headerBytes _ _ _ _ (by decide),
    slice_append_right (by rw [List.takeD_length]; decide), List.takeD_length,
    slice_append_right (by rw [beBytes_length]; decide), beBytes_length,
    slice_append_right (by rw [List.takeD_length]), List.takeD_length,
    slice_append_left (by rw [beBytes_length]), slice_all (beBytes_length 4 _)]
  exact beValue_beBytes 4 r.iclogSize

theorem header_blanked :
    patch ((headerBytes uuid r cycleData crc).take 328) 32 [0, 0, 0, 0] =
      (headerBytes uuid r cycleData 0).take 328 := by
  have hzero : leBytes 4 0 = [0, 0, 0, 0] := by decide
  have htake : ∀ c, (headerBytes uuid r cycleData c).take 328 =
      headerFront r ++ (leBytes 4 c ++ (headerBack uuid r cycleData).take 292) := by
    intro c
    rw [headerBytes_eq, List.take_append, headerFront_length, List.take_append, leBytes_length,
      List.take_of_length_le (by rw [headerFront_length]; decide),
      List.take_of_length_le (by rw [leBytes_length]; decide)]
  rw [htake, htake, hzero, patch, List.take_append, headerFront_length, Nat.sub_self,
    List.take_zero, List.append_nil, List.take_of_length_le (by rw [headerFront_length]),
    List.drop_append, headerFront_length, List.drop_eq_nil_of_le (by rw [headerFront_length]; decide),
    List.nil_append]
  have hdrop : (leBytes 4 crc ++ (headerBack uuid r cycleData).take 292).drop
      (32 + [(0 : UInt8), 0, 0, 0].length - 32) = (headerBack uuid r cycleData).take 292 := rfl
  rw [hdrop, List.append_assoc]

end

/-! ## Unpacking -/

theorem unpackBlocks_eq (headers : List UInt8) (headerBlocks : ℕ) (blocks : List ℕ)
    (h : ∀ i ∈ blocks, i < xlogCycleDataEntries) (data : List UInt8) :
    unpackBlocks headers headerBlocks blocks data =
      blocks.foldl (fun data i => patch data (i * 512) (slice headers (44 + 4 * i) 4)) data := by
  induction blocks generalizing data with
  | nil => rfl
  | cons i blocks ih =>
    have hword : wordOffset headerBlocks i = some (44 + 4 * i) :=
      if_pos (h i List.mem_cons_self)
    rw [unpackBlocks, hword, List.foldl_cons]
    exact ih (fun j hj => h j (List.mem_cons_of_mem _ hj)) _

theorem foldl_unpack {headers data : List UInt8} {n : ℕ} (hheaders : 44 + 4 * n ≤ headers.length)
    (hdata : n * 512 ≤ data.length) :
    ((List.range n).foldl
      (fun data i => patch data (i * 512) (slice headers (44 + 4 * i) 4)) data).length =
        data.length ∧
    ∀ j, ((List.range n).foldl
      (fun data i => patch data (i * 512) (slice headers (44 + 4 * i) 4)) data)[j]? =
        if j / 512 < n ∧ j % 512 < 4 then headers[44 + 4 * (j / 512) + j % 512]? else data[j]? := by
  induction n with
  | zero => simp
  | succ n ih =>
    obtain ⟨hlen, hbytes⟩ := ih (by omega) (by omega)
    have hword : (slice headers (44 + 4 * n) 4).length = 4 := slice_length (by omega)
    rw [List.range_succ, List.foldl_append, List.foldl_cons, List.foldl_nil]
    have hfit : n * 512 + (slice headers (44 + 4 * n) 4).length ≤ ((List.range n).foldl
        (fun data i => patch data (i * 512) (slice headers (44 + 4 * i) 4)) data).length := by
      omega
    refine ⟨(patch_length hfit).trans hlen, fun j => ?_⟩
    rw [getElem?_patch hfit, hword, hbytes]
    by_cases hhere : n * 512 ≤ j ∧ j < n * 512 + 4
    · have hdiv : j / 512 = n := by omega
      have hmod : j % 512 = j - n * 512 := by omega
      rw [if_pos hhere, if_pos (by omega), getElem?_slice, if_pos (by omega), hdiv, hmod]
    · rw [if_neg hhere]
      by_cases hearlier : j / 512 < n ∧ j % 512 < 4
      · rw [if_pos hearlier, if_pos (by omega)]
      · rw [if_neg hearlier, if_neg (by omega)]

section

variable {crc32c : List UInt8 → ℕ} {uuid : List UInt8} {r : LogRecord}

def paddedPayload (r : LogRecord) : List UInt8 :=
  r.payload.takeD (divCeil r.len 512 * 512) 0

def stampedPayload (r : LogRecord) : List UInt8 :=
  (List.range (divCeil r.len 512)).flatMap fun k =>
    beBytes 4 r.cycle ++ slice (paddedPayload r) (k * 512 + 4) (512 - 4)

def displacedWords (r : LogRecord) : List UInt8 :=
  (List.range (divCeil r.len 512)).flatMap fun k => slice (paddedPayload r) (k * 512) 4

theorem encodeRecord_eq (h : divCeil r.len 512 ≤ 64) :
    encodeRecord crc32c uuid r = .ok (headerBytes uuid r (displacedWords r)
      (crc32c ((headerBytes uuid r (displacedWords r) 0).take 328 ++ (stampedPayload r).take r.len)) ++
        stampedPayload r) := by
  rw [encodeRecord, if_neg (Nat.not_lt.mpr h)]
  rfl

theorem paddedPayload_length : (paddedPayload r).length = divCeil r.len 512 * 512 :=
  List.takeD_length ..

theorem stampedPayload_block {k : ℕ} (h : k < divCeil r.len 512) :
    (beBytes 4 r.cycle ++ slice (paddedPayload r) (k * 512 + 4) (512 - 4)).length = 512 := by
  rw [List.length_append, beBytes_length, slice_length]
  rw [paddedPayload_length]
  omega

theorem stampedPayload_length : (stampedPayload r).length = divCeil r.len 512 * 512 :=
  length_flatMap_range fun _ hk => stampedPayload_block hk

theorem displacedWords_length : (displacedWords r).length = divCeil r.len 512 * 4 :=
  length_flatMap_range fun k hk => slice_length (by rw [paddedPayload_length]; omega)

theorem unpack_encoded (crc : ℕ) (h : divCeil r.len 512 ≤ 64) :
    unpack (headerBytes uuid r (displacedWords r) crc) 1 (stampedPayload r) r.len = r.payload := by
  have hblocks : (stampedPayload r).length / 512 = divCeil r.len 512 := by
    rw [stampedPayload_length]
    exact Nat.mul_div_cancel _ (by decide)
  have hsmall : ∀ i ∈ List.range (divCeil r.len 512), i < xlogCycleDataEntries := by
    intro i hi
    have hlt := List.mem_range.mp hi
    simp only [xlogCycleDataEntries]
    omega
  obtain ⟨hwhole, hbytes⟩ := @foldl_unpack (headerBytes uuid r (displacedWords r) crc)
    (stampedPayload r) (divCeil r.len 512) (by rw [headerBytes_length]; omega)
    (by rw [stampedPayload_length])
  have hrestored : unpackBlocks (headerBytes uuid r (displacedWords r) crc) 1
      (List.range (divCeil r.len 512)) (stampedPayload r) = paddedPayload r := by
    rw [unpackBlocks_eq _ _ _ hsmall]
    apply List.ext_getElem?
    intro j
    rw [hbytes]
    by_cases hin : j < divCeil r.len 512 * 512
    · have hk : j / 512 < divCeil r.len 512 := by omega
      by_cases hfirst : j % 512 < 4
      · rw [if_pos ⟨hk, hfirst⟩]
        have hword := congrArg (fun l => l[j % 512]?)
          (header_word uuid r (displacedWords r) crc (by omega : 4 * (j / 512) + 4 ≤ 256))
        simp only [getElem?_slice, hfirst, if_true] at hword
        rw [hword]
        have htaken : (List.takeD 256 (displacedWords r) 0)[4 * (j / 512) + j % 512]? =
            (displacedWords r)[4 * (j / 512) + j % 512]? := by
          rw [takeD_eq_append (by rw [displacedWords_length]; omega),
            List.getElem?_append_left (by rw [displacedWords_length]; omega)]
        rw [htaken, displacedWords, getElem?_flatMap_range (by decide)
          (fun k hk => slice_length (by rw [paddedPayload_length]; omega)), if_pos (by omega)]
        have hdiv : (4 * (j / 512) + j % 512) / 4 = j / 512 := by omega
        have hmod : (4 * (j / 512) + j % 512) % 4 = j % 512 := by omega
        rw [hdiv, hmod, getElem?_slice, if_pos hfirst]
        congr 1
        omega
      · rw [if_neg (by omega), stampedPayload, getElem?_flatMap_range (by decide)
          (fun k hk => stampedPayload_block hk), if_pos hin,
          List.getElem?_append_right (by rw [beBytes_length]; omega), beBytes_length,
          getElem?_slice, if_pos (by omega)]
        congr 1
        omega
    · rw [if_neg (by omega), List.getElem?_eq_none (by rw [stampedPayload_length]; omega),
        List.getElem?_eq_none (by rw [paddedPayload_length]; omega)]
  have hlen : r.payload.length = r.len := List.takeD_length ..
  have hfit : r.payload.length ≤ divCeil r.len 512 * 512 := by
    rw [hlen]
    exact le_divCeil_mul _ (by decide)
  rw [unpack, hblocks, hrestored, paddedPayload, takeD_eq_append hfit, List.take_left' hlen]

end

/-! ## Operations -/

/-- An operation whose length and flags fit the fields of its header. -/
def Op.Plain (op : Op) : Prop :=
  op.data.length < 2 ^ 32 ∧ op.flags < 2 ^ 8

variable {tid : ℕ} {items : List RawItem} {built : List (List (List UInt8))}
  {st : OpenItems × List (List RawItem)}

theorem readOpsFrom_cons (htid : tid < 2 ^ 32) {op : Op} (hop : op.Plain) (count : ℕ)
    (tail : List UInt8) :
    readOpsFrom (count + 1) (opBytes tid op ++ tail) st = readOpsFrom count tail (takeOp tid st op) := by
  have hlong : ¬(opBytes tid op ++ tail).length < opHeaderSize := by
    rw [List.length_append, opBytes_length, opCost]
    omega
  have htidval : beValue (slice (opBytes tid op ++ tail) 0 4) = tid :=
    (beValue_beBytes 4 tid).trans (Nat.mod_eq_of_lt (lt_of_lt_of_eq htid (by norm_num)))
  have hlenval : beValue (slice (opBytes tid op ++ tail) 4 4) = op.data.length :=
    (beValue_beBytes 4 _).trans (Nat.mod_eq_of_lt (lt_of_lt_of_eq hop.1 (by norm_num)))
  have hflags : ((opBytes tid op ++ tail).getD 9 0).toNat = op.flags := by
    exact Nat.mod_eq_of_lt hop.2
  have hrest : (opBytes tid op ++ tail).drop opHeaderSize = op.data ++ tail := rfl
  rw [readOpsFrom, if_neg hlong]
  simp only [htidval, hlenval, hflags, hrest]
  rw [if_neg (by simp), List.take_left, List.drop_left]

theorem readOpsFrom_payload (htid : tid < 2 ^ 32) {ops : List Op}
    (hops : ∀ op ∈ ops, op.Plain) (tail : List UInt8) :
    readOpsFrom ops.length (payload tid ops ++ tail) st = .ok (ops.foldl (takeOp tid) st) := by
  induction ops generalizing st with
  | nil => rfl
  | cons op ops ih =>
    have hcons : payload tid (op :: ops) = opBytes tid op ++ payload tid ops := List.flatMap_cons
    rw [hcons, List.append_assoc, List.length_cons,
      readOpsFrom_cons htid (hops op List.mem_cons_self),
      ih fun op' h' => hops op' (List.mem_cons_of_mem _ h')]
    rfl

section

variable {crc32c : List UInt8 → ℕ} {uuid : List UInt8} {r : LogRecord}

theorem checkRecord_encoded (at_ : ℕ) (hsmall : r.len ≤ 32768) :
    checkRecord crc32c (headerBytes uuid r (displacedWords r)
      (crc32c ((headerBytes uuid r (displacedWords r) 0).take 328 ++ (stampedPayload r).take r.len)))
      1 ((stampedPayload r).take r.len) at_ = .ok () := by
  generalize hcrc : crc32c ((headerBytes uuid r (displacedWords r) 0).take 328 ++
    (stampedPayload r).take r.len) = crc
  have hdata : ((stampedPayload r).take r.len).length ≤ 32768 :=
    (List.length_take_le _ _).trans hsmall
  have hone : divCeil ((stampedPayload r).take r.len).length xlogHeaderCycleSize - 1 = 0 := by
    simp only [divCeil, xlogHeaderCycleSize]
    omega
  have hsum : recordChecksum crc32c (headerBytes uuid r (displacedWords r) crc)
      ((stampedPayload r).take r.len) = crc % 256 ^ 4 := by
    rw [recordChecksum, hone, header_blanked]
    simp only [List.range'_zero, List.flatMap_nil, ite_self, List.append_nil, hcrc]
    norm_num
  have hfew : ¬(Nat.testBit 2 1 = true ∧
      1 < divCeil ((stampedPayload r).take r.len).length xlogHeaderCycleSize) := by
    rintro ⟨-, hlt⟩
    omega
  rw [checkRecord, header_crc, hsum, header_version]
  simp only [ne_eq, not_true_eq_false, if_false]
  rw [if_neg hfew, ite_self]

theorem readRecord_encoded {cap : ℕ} (hcap : maxPayload r.iclogSize = .ok cap)
    (hpayload : (payload r.tid r.ops).length ≤ r.len) (hlen : r.len ≤ cap)
    (htid : r.tid < 2 ^ 32) (hops : ∀ op ∈ r.ops, op.flags < 2 ^ 8) :
    ∃ bytes, encodeRecord crc32c uuid r = .ok bytes ∧
      ∀ at_ st, readRecord crc32c at_ bytes st = .ok (r.ops.foldl (takeOp r.tid) st) := by
  obtain ⟨hsize, hsum⟩ := maxPayload_spec hcap
  have hblocks : divCeil r.len 512 ≤ 64 := by
    simp only [divCeil]
    omega
  refine ⟨_, encodeRecord_eq hblocks, fun at_ st => ?_⟩
  generalize hcrc : crc32c ((headerBytes uuid r (displacedWords r) 0).take 328 ++
    (stampedPayload r).take r.len) = crc
  have hheader : slice (headerBytes uuid r (displacedWords r) crc ++ stampedPayload r) 0 512 =
      headerBytes uuid r (displacedWords r) crc := by
    rw [slice_append_left (by rw [headerBytes_length]), slice_all (headerBytes_length ..)]
  have hone : headerBlocksOf (headerBytes uuid r (displacedWords r) crc) = 1 := by
    rw [headerBlocksOf, header_version, header_size]
    have hfit : r.iclogSize % 256 ^ 4 ≤ xlogHeaderCycleSize :=
      (Nat.mod_le _ _).trans hsize
    rw [if_neg (by decide), if_pos hfit]
  have hlenval : beValue (slice (headerBytes uuid r (displacedWords r) crc) 12 4) = r.len := by
    rw [header_len]
    exact Nat.mod_eq_of_lt (lt_of_le_of_lt hlen (by omega))
  have hcost : r.ops.length ≤ (payload r.tid r.ops).length := by
    rw [payload_length]
    calc r.ops.length = (r.ops.map fun _ => 1).sum := by simp
      _ ≤ (r.ops.map opCost).sum := by
        apply List.sum_le_sum
        intro op _
        simp only [opCost, opHeaderSize]
        omega
  have hcount : beValue (slice (headerBytes uuid r (displacedWords r) crc) 40 4) =
      r.ops.length := by
    rw [header_numLogops]
    exact Nat.mod_eq_of_lt (by omega)
  have hplain : ∀ op ∈ r.ops, op.Plain := by
    intro op hop
    have hle : opCost op ≤ (r.ops.map opCost).sum :=
      List.single_le_sum (fun _ _ => Nat.zero_le _) _ (List.mem_map_of_mem hop)
    rw [← payload_length r.tid, opCost] at hle
    exact ⟨by omega, hops op hop⟩
  have hraw : slice (headerBytes uuid r (displacedWords r) crc ++ stampedPayload r) (1 * 512)
      (divCeil r.len 512 * 512) = stampedPayload r := by
    rw [slice_append_right (by rw [headerBytes_length]), headerBytes_length]
    exact slice_all stampedPayload_length
  have hcheck := @checkRecord_encoded crc32c uuid r at_ (by omega)
  rw [hcrc] at hcheck
  have hpadded : r.payload = payload r.tid r.ops ++
      List.replicate (r.len - (payload r.tid r.ops).length) 0 := takeD_eq_append hpayload
  rw [readRecord]
  simp only [hheader, hone, hlenval, hcount, hraw, Nat.one_mul]
  rw [hcheck, unpack_encoded crc hblocks, hpadded]
  exact readOpsFrom_payload htid hplain _

end

/-! ## Items -/

def gather (items : List RawItem) (bodies : List (List UInt8)) : List RawItem :=
  bodies.foldl (fun items body => addOp items body 0) items

theorem addOp_of_nonempty {body : List UInt8} (hbody : body ≠ [])
    (hheader : items = [] → isHeaderBody body = false) : addOp items body 0 = addRegion items body := by
  have hplain : ¬((Nat.testBit 0 3 = true) ∨ (Nat.testBit 0 4 = true)) := by decide
  rw [addOp, if_neg hplain, if_neg hbody, if_neg]
  rintro ⟨hempty, hhead⟩
  rw [hheader hempty] at hhead
  cases hhead

def Full (items : List RawItem) : Prop :=
  ∀ item ∈ items.getLast?, item.total ≤ item.regions.length

def builtItem (regions : List (List UInt8)) : RawItem :=
  ⟨regions, regions.length⟩

theorem gather_of_ne_nil {bodies : List (List UInt8)} (hne : items ≠ [])
    (hbodies : ∀ body ∈ bodies, body ≠ []) :
    gather items bodies = bodies.foldl addRegion items := by
  induction bodies generalizing items with
  | nil => rfl
  | cons body bodies ih =>
    have hfirst := addOp_of_nonempty (hbodies body List.mem_cons_self) fun h => absurd h hne
    rw [gather, List.foldl_cons, hfirst, List.foldl_cons]
    exact ih (addRegion_ne_nil items body) fun b hb => hbodies b (List.mem_cons_of_mem _ hb)

theorem gather_item {regions : List (List UInt8)} (hfull : Full items)
    (hown : OwnCount regions) (hregions : ∀ region ∈ regions, region ≠ []) :
    gather items regions = items ++ [builtItem regions] := by
  obtain ⟨f, rest, rfl⟩ := List.exists_cons_of_ne_nil hown.ne_nil
  obtain ⟨hlong, hcount, hmagic⟩ := hown
  simp only [List.headD_cons] at hlong hcount hmagic
  have hnew : newItem f = ⟨[f], (f :: rest).length⟩ := by
    rw [newItem, if_pos hlong, hcount, List.length_cons]
    congr 1
  have hnot : isHeaderBody f = false := by
    simp [isHeaderBody, hmagic]
  have hfirst : addOp items f 0 = items ++ [newItem f] := by
    rw [addOp_of_nonempty (hregions f List.mem_cons_self) fun _ => hnot, addRegion_full f hfull]
  rw [gather, List.foldl_cons, hfirst]
  change gather (items ++ [newItem f]) rest = _
  rw [gather_of_ne_nil (by simp) fun body hbody => hregions body (List.mem_cons_of_mem _ hbody),
    hnew, foldl_addRegion_open]
  · rfl
  · simp [Nat.add_comm]

theorem full_builtItem (items : List RawItem) (regions : List (List UInt8)) :
    Full (items ++ [builtItem regions]) := by
  intro item hitem
  rw [List.getLast?_append_of_ne_nil _ (by simp)] at hitem
  simp only [List.getLast?_singleton, Option.mem_def, Option.some.injEq] at hitem
  subst hitem
  exact le_refl _

theorem gather_items (hfull : Full items)
    (hown : ∀ regions ∈ built, OwnCount regions)
    (hregions : ∀ regions ∈ built, ∀ region ∈ regions, region ≠ []) :
    gather items built.flatten = items ++ built.map builtItem := by
  induction built generalizing items with
  | nil => simp [gather]
  | cons regions built ih =>
    rw [List.flatten_cons, gather, List.foldl_append]
    change gather (gather items regions) built.flatten = _
    rw [gather_item hfull (hown _ List.mem_cons_self) (hregions _ List.mem_cons_self),
      ih (full_builtItem _ _) (fun r hr => hown r (List.mem_cons_of_mem _ hr))
        fun r hr => hregions r (List.mem_cons_of_mem _ hr)]
    simp

def NoEmptyRegion (items : List RawItem) : Prop :=
  ∀ item ∈ items, ∀ region ∈ item.regions, region ≠ []

theorem addRegion_noEmptyRegion {body : List UInt8}
    (h : NoEmptyRegion items) (hbody : body ≠ []) : NoEmptyRegion (addRegion items body) := by
  have hnew : ∀ region ∈ (newItem body).regions, region ≠ [] := by
    intro region hregion
    rw [List.mem_singleton.mp hregion]
    exact hbody
  unfold addRegion
  split
  · next last hlast =>
    have hmem : last ∈ items := List.mem_of_getLast? hlast
    split
    · intro item hitem
      rcases List.mem_append.mp hitem with hitem | hitem
      · exact h item (List.dropLast_subset items hitem)
      · rw [List.mem_singleton.mp hitem]
        intro region hregion
        rcases List.mem_append.mp hregion with hregion | hregion
        · exact h last hmem region hregion
        · rw [List.mem_singleton.mp hregion]
          exact hbody
    · intro item hitem
      rcases List.mem_append.mp hitem with hitem | hitem
      · exact h item hitem
      · rw [List.mem_singleton.mp hitem]
        exact hnew
  · intro item hitem
    rw [List.mem_singleton.mp hitem]
    exact hnew

theorem gather_noEmptyRegion (bodies : List (List UInt8))
    (h : NoEmptyRegion items) : NoEmptyRegion (gather items bodies) := by
  induction bodies generalizing items with
  | nil => exact h
  | cons body bodies ih =>
    apply ih
    simp only [addOp]
    split
    · next hflag => exact absurd hflag (by decide)
    · split
      · exact h
      · next hbody =>
        split
        · exact h
        · exact addRegion_noEmptyRegion h hbody

/-! ## A transaction -/

theorem takeOp_plain (hopen : st.1.lookup tid = some items) (body : List UInt8) :
    takeOp tid st ⟨0, body⟩ = (st.1.insert tid (addOp items body 0), st.2) := by
  simp [takeOp, Op.isUnmount, Op.isStart, Op.isCommit, hopen]

theorem foldl_takeOp_plain (items : List RawItem) (bodies : List (List UInt8)) :
    (bodies.map fun data => (⟨0, data⟩ : Op)).foldl (takeOp tid) (st.1.insert tid items, st.2) =
      (st.1.insert tid (gather items bodies), st.2) := by
  induction bodies generalizing items with
  | nil => rfl
  | cons body bodies ih =>
    rw [List.map_cons, List.foldl_cons, takeOp_plain (AList.lookup_insert _), AList.insert_insert, ih]
    rfl

theorem foldl_takeOp_opened (tid itemOps : ℕ) :
    [(⟨xlogStartTrans, []⟩ : Op), ⟨0, transHeader tid xfsTransCheckpoint itemOps⟩].foldl
      (takeOp tid) st = (st.1.insert tid [], st.2) := by
  have hstart : takeOp tid st ⟨xlogStartTrans, []⟩ = (st.1.insert tid [], st.2) := rfl
  have hheader : isHeaderBody (transHeader tid xfsTransCheckpoint itemOps) = true := by
    have hslice : slice (transHeader tid xfsTransCheckpoint itemOps) 0 4 =
        leBytes 4 xfsTransHeaderMagic := rfl
    have hmagic : leValue (slice (transHeader tid xfsTransCheckpoint itemOps) 0 4) =
        xfsTransHeaderMagic := by
      rw [hslice]
      exact leValue_leBytes_of_lt (by decide)
    have hlen : (transHeader tid xfsTransCheckpoint itemOps).length = 16 := by simp [transHeader]
    simp [isHeaderBody, hmagic, hlen]
  have hskip : addOp [] (transHeader tid xfsTransCheckpoint itemOps) 0 = [] := by
    have hne : transHeader tid xfsTransCheckpoint itemOps ≠ [] := by simp [transHeader, leBytes]
    rw [addOp, if_neg (by decide), if_neg hne, if_pos ⟨rfl, hheader⟩]
  rw [List.foldl_cons, hstart, List.foldl_cons, takeOp_plain (AList.lookup_insert _),
    AList.insert_insert, hskip]
  rfl

theorem takeOp_commit (items : List RawItem) :
    takeOp tid (st.1.insert tid items, st.2) ⟨xlogCommitTrans, []⟩ =
      (st.1.erase tid, if items = [] then st.2 else st.2 ++ [items]) := by
  have herase : (st.1.insert tid items).erase tid = st.1.erase tid := by
    ext : 1
    change List.kerase tid (st.1.insert tid items).entries = List.kerase tid st.1.entries
    exact List.kerase_cons_eq rfl
  have hstep : takeOp tid (st.1.insert tid items, st.2) ⟨xlogCommitTrans, []⟩ =
      match (st.1.insert tid items).lookup tid with
      | some items' => ((st.1.insert tid items).erase tid,
        if items' = [] then st.2 else st.2 ++ [items'])
      | none => (st.1.insert tid items, st.2) := rfl
  rw [hstep, AList.lookup_insert, herase]

theorem foldl_takeOp_transaction (tid itemOps : ℕ) (built : List (List (List UInt8))) :
    (checkpointOps tid itemOps built).foldl (takeOp tid) st =
      (st.1.erase tid, if gather [] built.flatten = [] then st.2
        else st.2 ++ [gather [] built.flatten]) := by
  have hops : checkpointOps tid itemOps built =
      [(⟨xlogStartTrans, []⟩ : Op), ⟨0, transHeader tid xfsTransCheckpoint itemOps⟩] ++
        ((built.flatten.map fun data => (⟨0, data⟩ : Op)) ++ [⟨xlogCommitTrans, []⟩]) := rfl
  rw [hops, List.foldl_append, foldl_takeOp_opened, List.foldl_append, foldl_takeOp_plain,
    List.foldl_cons, takeOp_commit]
  rfl

theorem takeOp_handed {op : Op} (hop : op.isCommit = false) : (takeOp tid st op).2 = st.2 := by
  unfold takeOp
  split
  · rfl
  · split
    · rfl
    · rw [hop]
      simp only [Bool.false_eq_true, if_false]
      split <;> rfl

theorem foldl_takeOp_handed {ops : List Op} (hops : ∀ op ∈ ops, op.isCommit = false) :
    (ops.foldl (takeOp tid) st).2 = st.2 := by
  induction ops generalizing st with
  | nil => rfl
  | cons op ops ih =>
    rw [List.foldl_cons, ih fun op' h' => hops op' (List.mem_cons_of_mem _ h'),
      takeOp_handed (hops op List.mem_cons_self)]

theorem checkpointOps_take_handed {tid itemOps : ℕ} {n : ℕ}
    (hn : n < (checkpointOps tid itemOps built).length) :
    (((checkpointOps tid itemOps built).take n).foldl (takeOp tid) st).2 = st.2 := by
  apply foldl_takeOp_handed
  set front : List Op := ⟨xlogStartTrans, []⟩ :: ⟨0, transHeader tid xfsTransCheckpoint itemOps⟩ ::
    (built.flatten.map fun data => (⟨0, data⟩ : Op)) with hfront
  have hops : checkpointOps tid itemOps built = front ++ [⟨xlogCommitTrans, []⟩] := rfl
  have hle : n ≤ front.length := by
    rw [hops, List.length_append, List.length_singleton] at hn
    omega
  intro op hop
  rw [hops, List.take_append_of_le_length hle] at hop
  have hmem := List.mem_of_mem_take hop
  rcases List.mem_cons.mp hmem with rfl | hmem
  · rfl
  rcases List.mem_cons.mp hmem with rfl | hmem
  · exact Nat.zero_testBit 1
  obtain ⟨data, -, rfl⟩ := List.mem_map.mp hmem
  exact Nat.zero_testBit 1

/-! ## Through the records -/

section

variable (crc32c : List UInt8 → ℕ)

def encodeAll (uuid : List UInt8) (records : List LogRecord) :
    Except Error (List (ℕ × List UInt8)) :=
  records.mapM fun r => do
    let bytes ← encodeRecord crc32c uuid r
    pure (r.block, bytes)

def readRecords (encoded : List (ℕ × List UInt8)) (st : OpenItems × List (List RawItem)) :
    Except Error (OpenItems × List (List RawItem)) :=
  encoded.foldlM (fun st record => readRecord crc32c record.1 record.2 st) st

/-- The records of one transaction, each long enough for its operations and short enough for the
in-core buffer. -/
structure RecordsOf (tid iclogSize : ℕ) (groups : List (List Op)) (records : List LogRecord) :
    Prop where
  groups_eq : records.map LogRecord.ops = groups
  tid_eq : ∀ r ∈ records, r.tid = tid
  size_eq : ∀ r ∈ records, r.iclogSize = iclogSize
  holds : ∀ r ∈ records, (payload tid r.ops).length ≤ r.len
  fits : ∀ r ∈ records, r.len + 512 ≤ iclogSize

/-- Reading the records is reading the operations in order; nothing is handed on before the commit,
and with it the transaction is, once, its items as they were built. -/
def ReadsBack (tid itemOps : ℕ) (built : List (List (List UInt8)))
    (encoded : List (ℕ × List UInt8)) (st : OpenItems × List (List RawItem)) : Prop :=
  readRecords crc32c encoded st =
      .ok ((checkpointOps tid itemOps built).foldl (takeOp tid) st) ∧
    (∀ n < (checkpointOps tid itemOps built).length,
      (((checkpointOps tid itemOps built).take n).foldl (takeOp tid) st).2 = st.2) ∧
    ((checkpointOps tid itemOps built).foldl (takeOp tid) st) =
      (st.1.erase tid, st.2 ++ [built.map builtItem])

end

section

variable {crc32c : List UInt8 → ℕ} {uuid : List UInt8} {tid iclogSize : ℕ}

theorem readRecords_encodeAll {groups : List (List Op)} {records : List LogRecord} {cap : ℕ}
    (hcap : maxPayload iclogSize = .ok cap) (h : RecordsOf tid iclogSize groups records)
    (htid : tid < 2 ^ 32) (hflags : ∀ op ∈ groups.flatten, op.flags < 2 ^ 8) :
    ∃ encoded, encodeAll crc32c uuid records = .ok encoded ∧
      ∀ st, readRecords crc32c encoded st = .ok (groups.flatten.foldl (takeOp tid) st) := by
  induction records generalizing groups with
  | nil =>
    have hgroups : groups = [] := h.groups_eq.symm
    subst hgroups
    exact ⟨[], rfl, fun st => rfl⟩
  | cons r records ih =>
    have hgroups : groups = r.ops :: records.map LogRecord.ops := h.groups_eq.symm
    subst hgroups
    have hmem : r ∈ r :: records := List.mem_cons_self
    have hsize := maxPayload_spec hcap
    have hlen := h.fits r hmem
    obtain ⟨bytes, hbytes, hread⟩ := @readRecord_encoded crc32c uuid r cap
      (by rw [h.size_eq r hmem]; exact hcap) (by rw [h.tid_eq r hmem]; exact h.holds r hmem)
      (by omega) (by rw [h.tid_eq r hmem]; exact htid)
      (fun op hop => hflags op (by rw [List.flatten_cons]; exact List.mem_append_left _ hop))
    obtain ⟨encoded, hencoded, hall⟩ := ih
      ⟨rfl, fun r' h' => h.tid_eq r' (List.mem_cons_of_mem _ h'),
        fun r' h' => h.size_eq r' (List.mem_cons_of_mem _ h'),
        fun r' h' => h.holds r' (List.mem_cons_of_mem _ h'),
        fun r' h' => h.fits r' (List.mem_cons_of_mem _ h')⟩
      (fun op hop => hflags op (by rw [List.flatten_cons]; exact List.mem_append_right _ hop))
    refine ⟨(r.block, bytes) :: encoded, ?_, fun st => ?_⟩
    · rw [encodeAll, List.mapM_cons, hbytes]
      change (encodeAll crc32c uuid records >>= _) = _
      rw [hencoded]
      rfl
    · rw [readRecords, List.foldlM_cons, hread, h.tid_eq r hmem, List.flatten_cons, List.foldl_append]
      exact hall _

/-- What is handed on is the transaction as it was built exactly when it has an item and no item has
an empty operation. -/
theorem handed_iff {itemOps : ℕ} {built : List (List (List UInt8))}
    (hown : ∀ regions ∈ built, OwnCount regions) (st : OpenItems × List (List RawItem)) :
    (checkpointOps tid itemOps built).foldl (takeOp tid) st =
        (st.1.erase tid, st.2 ++ [built.map builtItem]) ↔
      built ≠ [] ∧ ∀ regions ∈ built, ∀ region ∈ regions, region ≠ [] := by
  rw [foldl_takeOp_transaction, Prod.mk.injEq]
  constructor
  · rintro ⟨-, hhanded⟩
    have hgather : gather [] built.flatten = built.map builtItem := by
      split at hhanded
      · exact absurd hhanded (by simp)
      · simpa using hhanded
    refine ⟨?_, fun regions hregions region hregion => ?_⟩
    · rintro rfl
      exact absurd hhanded (by simp [gather])
    · have hnone := gather_noEmptyRegion built.flatten
        (fun item hitem => absurd hitem (by simp) : NoEmptyRegion [])
      rw [hgather] at hnone
      exact hnone _ (List.mem_map_of_mem hregions) region hregion
  · rintro ⟨hne, hregions⟩
    have hgather : gather [] built.flatten = built.map builtItem := by
      have h := gather_items (fun item hitem => absurd hitem (by simp) : Full []) hown hregions
      simpa using h
    rw [hgather, if_neg (by simpa using hne)]
    exact ⟨rfl, rfl⟩

theorem checkpointOps_flags (tid itemOps : ℕ) (built : List (List (List UInt8))) :
    ∀ op ∈ checkpointOps tid itemOps built, op.flags < 2 ^ 8 := by
  intro op hop
  rcases List.mem_append.mp hop with hop | hop
  · rcases List.mem_cons.mp hop with rfl | hop
    · decide
    rcases List.mem_cons.mp hop with rfl | hop
    · exact Nat.two_pow_pos 8
    obtain ⟨data, -, rfl⟩ := List.mem_map.mp hop
    exact Nat.two_pow_pos 8
  · rw [List.mem_singleton.mp hop]
    decide

theorem readRecords_split {itemOps : ℕ} {built : List (List (List UInt8))}
    {groups : List (List Op)} {records : List LogRecord} (htid : tid < 2 ^ 32)
    (hsplit : splitIntoRecords (checkpointOps tid itemOps built) iclogSize = .ok groups)
    (hrecords : RecordsOf tid iclogSize groups records) :
    ∃ encoded, encodeAll crc32c uuid records = .ok encoded ∧ ∀ st, readRecords crc32c encoded st =
      .ok ((checkpointOps tid itemOps built).foldl (takeOp tid) st) := by
  obtain ⟨cap, hcap, hflat, -, -⟩ := splitIntoRecords_spec hsplit
  rw [← hflat]
  refine readRecords_encodeAll hcap hrecords htid ?_
  rw [hflat]
  exact checkpointOps_flags tid itemOps built

/-- Split into records, encoded and read back, a transaction of the driver's comes out as it was
built, and once, exactly when it has an item and no item has an empty operation. -/
theorem transaction_reads_back_iff {itemOps : ℕ} {built : List (List (List UInt8))}
    {groups : List (List Op)} {records : List LogRecord}
    (hbuilt : ∀ regions ∈ built, DriverItem regions) (htid : tid < 2 ^ 32)
    (hsplit : splitIntoRecords (checkpointOps tid itemOps built) iclogSize = .ok groups)
    (hrecords : RecordsOf tid iclogSize groups records) :
    ∃ encoded, encodeAll crc32c uuid records = .ok encoded ∧
      ∀ st, ReadsBack crc32c tid itemOps built encoded st ↔
        built ≠ [] ∧ ∀ regions ∈ built, ∀ region ∈ regions, region ≠ [] := by
  obtain ⟨encoded, hencoded, hread⟩ :=
    @readRecords_split crc32c uuid tid iclogSize itemOps built groups records htid hsplit hrecords
  refine ⟨encoded, hencoded, fun st => ?_⟩
  rw [← handed_iff (fun regions hr => (hbuilt regions hr).own) st]
  constructor
  · rintro ⟨-, -, hhanded⟩
    exact hhanded
  · intro hhanded
    exact ⟨hread st, fun n hn => checkpointOps_take_handed hn, hhanded⟩

end

/-! ### A changed inode, and one cut to nothing -/

def smallRecord (itemOps : ℕ) (built : List (List (List UInt8))) : LogRecord where
  block := 2
  cycle := 1
  prevBlock := 0
  tailLsn := 2 ^ 32
  iclogSize := 32768
  tid := 2 ^ 31
  ops := checkpointOps (2 ^ 31) itemOps built
  len := 2048

theorem smallRecord_spec {itemOps : ℕ}
    (h : (payload (2 ^ 31) (checkpointOps (2 ^ 31) itemOps built)).length ≤ 2048) :
    splitIntoRecords (checkpointOps (2 ^ 31) itemOps built) 32768 =
        .ok [checkpointOps (2 ^ 31) itemOps built] ∧
      RecordsOf (2 ^ 31) 32768 [checkpointOps (2 ^ 31) itemOps built]
        [smallRecord itemOps built] := by
  have hcap : maxPayload 32768 = .ok 32256 := rfl
  refine ⟨splitIntoRecords_fits hcap ?_ (by simp [checkpointOps]), rfl, ?_, ?_, ?_, ?_⟩
  · rw [← payload_length (2 ^ 31)]
    omega
  · simp [smallRecord]
  · simp [smallRecord]
  · simpa [smallRecord] using h
  · simp [smallRecord]

def firstCluster : InodeBuffer where
  blkno := 128
  len := 32
  boffset := 1536

-- whole buffers, one behind the other
def fullRecords (groups : List (List Op)) : List LogRecord :=
  groups.zipIdx.map fun g =>
    { smallRecord 0 [] with block := 2 + 64 * g.2, ops := g.1, len := 32256 }

theorem fullRecords_of {ops : List Op} {groups : List (List Op)}
    (h : splitIntoRecords ops 32768 = .ok groups) :
    RecordsOf (2 ^ 31) 32768 groups (fullRecords groups) := by
  obtain ⟨cap, hcap, -, -, hlen⟩ := splitIntoRecords_spec h
  obtain rfl : 32256 = cap := Except.ok.inj hcap
  refine ⟨?_, ?_, ?_, ?_, ?_⟩
  · rw [fullRecords, List.map_map]
    exact List.zipIdx_map_fst 0 groups
  all_goals
    intro r hr
    obtain ⟨g, hg, rfl⟩ := List.mem_map.mp hr
  · rfl
  · rfl
  · exact hlen _ _ (List.fst_mem_of_mem_zipIdx hg)
  · exact le_refl _

def touchedInode (i : ℕ) : List (List UInt8) :=
  [inodeLogFormat (128 + i) 1 ⟨128 + 32 * (i / 32), 32, 512 * (i % 32)⟩, List.replicate 176 0]

def touchedInodes : List (List (List UInt8)) :=
  (List.range 130).map touchedInode

/-- More inodes than one record holds. -/
theorem touchedInodes_read_back :
    ∃ groups encoded, splitIntoRecords (checkpointOps (2 ^ 31) 260 touchedInodes) 32768 = .ok groups ∧
      groups.length = 2 ∧ encodeAll (fun _ => 7) [] (fullRecords groups) = .ok encoded ∧
      ReadsBack (fun _ => 7) (2 ^ 31) 260 touchedInodes encoded (∅, []) := by
  have hbuilt : ∀ regions ∈ touchedInodes, DriverItem regions := by
    intro regions hregions
    obtain ⟨i, -, rfl⟩ := List.mem_map.mp hregions
    exact .core (128 + i) 1 _ _
  have htwo : (splitIntoRecords (checkpointOps (2 ^ 31) 260 touchedInodes) 32768).toOption.map
      List.length = some 2 := by decide +kernel
  cases hsplit : splitIntoRecords (checkpointOps (2 ^ 31) 260 touchedInodes) 32768 with
  | error e =>
    rw [hsplit] at htwo
    cases htwo
  | ok groups =>
    rw [hsplit] at htwo
    obtain ⟨encoded, hencoded, hiff⟩ :=
      transaction_reads_back_iff hbuilt (by decide) hsplit (fullRecords_of hsplit)
    refine ⟨groups, encoded, rfl, Option.some.inj htwo, hencoded, (hiff _).mpr ⟨by decide, ?_⟩⟩
    intro regions hregions region hregion
    obtain ⟨i, -, rfl⟩ := List.mem_map.mp hregions
    rcases List.mem_cons.mp hregion with rfl | hregion
    · exact List.cons_ne_nil _ _
    · rw [List.mem_singleton.mp hregion]
      decide

def emptiedInode : List (List UInt8) :=
  [inodeLogFormatWithFork 131 5 firstCluster 0, List.replicate 176 0, forkOp []]

def emptyingItems : List (List (List UInt8)) :=
  [countedItem.ops.map Op.data, emptiedInode]

/-- A file cut to nothing, after its group's header: the record counts three operations for the
inode and the reader finds two. -/
theorem emptiedInode_does_not_read_back :
    (∀ regions ∈ emptyingItems, DriverItem regions) ∧
      splitIntoRecords (checkpointOps (2 ^ 31) 5 emptyingItems) 32768 =
        .ok [checkpointOps (2 ^ 31) 5 emptyingItems] ∧
      ∃ encoded, encodeAll (fun _ => 7) [] [smallRecord 5 emptyingItems] = .ok encoded ∧
        ¬ReadsBack (fun _ => 7) (2 ^ 31) 5 emptyingItems encoded (∅, []) := by
  have hbuilt : ∀ regions ∈ emptyingItems, DriverItem regions := by
    intro regions hregions
    rcases List.mem_cons.mp hregions with rfl | hregions
    · exact .buffer countedItem (BufferItem.describable_of_block (by decide))
    · rw [List.mem_singleton.mp hregions]
      exact .fork 131 5 firstCluster _ []
  have hlen : (payload (2 ^ 31) (checkpointOps (2 ^ 31) 5 emptyingItems)).length ≤ 2048 := by
    decide +kernel
  obtain ⟨hsplit, hrecords⟩ := smallRecord_spec hlen
  obtain ⟨encoded, hencoded, -⟩ := readRecords_split (by decide) hsplit hrecords
  refine ⟨hbuilt, hsplit, encoded, hencoded, fun h => ?_⟩
  have hnone := (handed_iff (fun regions hr => (hbuilt regions hr).own) _).mp h.2.2
  have hlast : [] ∈ emptiedInode := by decide +kernel
  exact hnone.2 emptiedInode (List.mem_cons_of_mem _ List.mem_cons_self) [] hlast rfl

end FsXfs.Log
