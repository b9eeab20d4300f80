import FsXfs.Mkfs.Plan
import Mathlib.Tactic.IntervalCases

/-!
# The layout of a plan

What a plan that `mkfs::plan` returns satisfies: the numbers it was computed from, and a superblock
that fits its fields and that a reader accepts.
-/

namespace FsXfs.Mkfs

open WholeSuperblock

set_option autoImplicit false

@[simp] theorem fit_eq_ok {width n m : ℕ} : fit width n = .ok m ↔ n < 2 ^ width ∧ n = m := by
  simp [fit, pure, Except.pure]

@[simp] theorem less_eq_ok {a b m : ℕ} : less a b = .ok m ↔ b ≤ a ∧ a - b = m := by
  simp [less, pure, Except.pure]

/-! ## The numbers of a plan -/

/-- The groups of a device: all of one length but the last. -/
structure Divided (opts : Options) (dblocks agcount agblocks last : ℕ) : Prop where
  agcount_pos : 0 < agcount
  agcount_lt : agcount < 2 ^ 32
  agblocks_ge : agMinBytes / opts.blockSize ≤ agblocks
  agblocks_le : agblocks ≤ agMaxBytes / opts.blockSize
  last_ge : agMinBytes / opts.blockSize ≤ last
  last_le : last ≤ agblocks
  total : (agcount - 1) * agblocks + last = dblocks

/-- A plan's parts, and what its checks left true of them. -/
structure Laid (deviceBytes : ℕ) (opts : Options) (uuid : List UInt8) (p : Plan) : Prop where
  blocksize : opts.blockSize = 1024 ∨ opts.blockSize = 2048 ∨ opts.blockSize = 4096
  label : ∀ label, opts.label = some label → label.utf8ByteSize ≤ maxLabelBytes
  device : minDeviceBytes ≤ deviceBytes
  divided : ∃ last, Divided opts (deviceBytes / opts.blockSize) p.sb.agcount p.sb.agblocks last ∧
    p.lengths = (List.replicate p.sb.agcount p.sb.agblocks).set (p.sb.agcount - 1) last
  logAg : p.logAg = p.sb.agcount / 2
  logAgbno : p.logAgbno = p.headerBlocks + rootBlocks
  logblocks : p.sb.logblocks =
    logBlocks (deviceBytes / opts.blockSize * opts.blockSize) opts.blockSize
  chunkAgbno : p.chunkAgbno = divCeil
    (p.headerBlocks + rootBlocks + agflFill + if p.logAg = 0 then p.sb.logblocks else 0)
    p.chunkBlocks * p.chunkBlocks
  logFits : ∃ room, p.lengths[p.logAg]? = some room ∧
    p.logAgbno + p.sb.logblocks + agflFill < room
  chunkFits : ∃ room, p.lengths[0]? = some room ∧ p.chunkAgbno + p.chunkBlocks ≤ room
  counted : ∃ free, (List.range p.sb.agcount).mapM p.countedFree = .ok free ∧
    free.sum = p.sb.fdblocks ∧ free.sum < 2 ^ 64
  sb : p.sb = { planSuperblock opts uuid (deviceBytes / opts.blockSize) p.sb.agcount p.sb.agblocks
      p.sb.logblocks p.logAg p.logAgbno p.chunkAgbno with fdblocks := p.sb.fdblocks }

theorem isPowerOfTwo_small {n : ℕ} (hpow : n.isPowerOfTwo) (hlo : 1024 ≤ n) (hhi : n ≤ 4096) :
    n = 1024 ∨ n = 2048 ∨ n = 4096 := by
  obtain ⟨k, rfl⟩ := hpow
  have hk : 10 ≤ k := (Nat.pow_le_pow_iff_right (by decide)).mp (show 2 ^ 10 ≤ 2 ^ k from hlo)
  have hk' : k ≤ 12 := (Nat.pow_le_pow_iff_right (by decide)).mp (show 2 ^ k ≤ 2 ^ 12 from hhi)
  interval_cases k
  · exact .inl rfl
  · exact .inr (.inl rfl)
  · exact .inr (.inr rfl)

theorem groups_divided {opts : Options} {dblocks agcount agblocks last : ℕ}
    (hbs : opts.blockSize = 1024 ∨ opts.blockSize = 2048 ∨ opts.blockSize = 4096)
    (h : groups opts dblocks = .ok (agcount, agblocks, last)) :
    Divided opts dblocks agcount agblocks last := by
  simp only [groups, bind_eq_ok, ensure_eq_ok, fit_eq_ok, less_eq_ok, exists_and_left, exists_const,
    pure, Except.pure, Except.ok.injEq, Prod.mk.injEq] at h
  obtain ⟨wanted, hwanted, hmax, hmin, others, ⟨hone, rfl⟩, before, ⟨hbefore, rfl⟩, rest,
    ⟨hle, rfl⟩, hlast, hcount, rfl, rfl, rfl⟩ := h
  have hpos : 0 < divCeil dblocks wanted := by
    refine lt_of_lt_of_le ?_ hmin
    rcases hbs with h | h | h
    all_goals
      rw [h]
      decide
  have hceil := le_divCeil_mul dblocks hpos
  refine ⟨hone, hcount, hmin, hmax, hlast, ?_, Nat.add_sub_cancel' hle⟩
  have hsplit : divCeil dblocks (divCeil dblocks wanted) * divCeil dblocks wanted =
      (divCeil dblocks (divCeil dblocks wanted) - 1) * divCeil dblocks wanted +
        divCeil dblocks wanted := by
    rw [Nat.sub_mul, Nat.one_mul, Nat.sub_add_cancel]
    exact Nat.le_mul_of_pos_left _ hone
  omega

theorem plan_laid {deviceBytes : ℕ} {opts : Options} {random : List UInt8} {p : Plan}
    (h : plan deviceBytes opts random = .ok p) :
    Laid deviceBytes opts (opts.uuid.getD random) p := by
  simp only [plan, bind_eq_ok, ensure_eq_ok, exists_and_left, exists_const, Prod.exists] at h
  obtain ⟨⟨hlo, hhi, hpow⟩, _, hlabel, hdevice, agcount, agblocks, last, hgroups, laid, hplace,
    hcount⟩ := h
  have hbs := isPowerOfTwo_small hpow hlo hhi
  have hdivided := groups_divided hbs hgroups
  simp only [place, bind_eq_ok, ensure_eq_ok, fit_eq_ok, orElse_eq_ok, exists_and_left, exists_const,
    pure, Except.pure, Except.ok.injEq] at hplace
  obtain ⟨bytes, ⟨-, rfl⟩, logblocks, ⟨-, hlogblocks⟩, logAgbno, ⟨-, hlogAgbno⟩, logEnd, ⟨-, hlogEnd⟩,
    room, hroom, hfits, first, ⟨-, hfirst⟩, chunkAgbno, ⟨-, hchunk⟩, rfl⟩ := hplace
  simp only [Plan.count, bind_eq_ok, ensure_eq_ok, fit_eq_ok, exists_and_left, exists_const, pure,
    Except.pure, Except.ok.injEq] at hcount
  obtain ⟨chunkEnd, ⟨-, hchunkEnd⟩, len, hlen, hroomFirst, free, hfree, fdblocks, ⟨hsum, rfl⟩, rfl⟩ :=
    hcount
  have hlen' := orElse_eq_ok.mp hlen
  exact
    { blocksize := hbs
      label := by
        intro label hl
        rw [hl] at hlabel
        exact ensure_eq_ok.mp hlabel
      device := hdevice
      divided := ⟨last, hdivided, rfl⟩
      logAg := rfl
      logAgbno := hlogAgbno.symm
      logblocks := hlogblocks.symm
      chunkAgbno := by
        rw [← hchunk, ← hfirst]
        rfl
      logFits := ⟨room, hroom, hlogEnd ▸ hfits⟩
      chunkFits := ⟨len, hlen', hchunkEnd ▸ hroomFirst⟩
      counted := ⟨free, hfree, rfl, hsum⟩
      sb := rfl }

/-! ## The superblock of a plan -/

section

variable {opts : Options} {uuid : List UInt8}
  {dblocks agcount agblocks logblocks logAg logAgbno chunkAgbno : ℕ}

theorem logstart_eq (hlog : logAgbno < agblocks) :
    logAg * 2 ^ (agblocks - 1).size ||| logAgbno = logAg * 2 ^ (agblocks - 1).size + logAgbno := by
  have hlt : logAgbno < 2 ^ (agblocks - 1).size :=
    lt_of_le_of_lt (Nat.le_sub_one_of_lt hlog) (Nat.lt_size_self _)
  rw [Nat.mul_comm, Nat.two_pow_add_eq_or_of_lt hlt]

theorem blockSize_checks {bs : ℕ} (hbs : bs = 1024 ∨ bs = 2048 ∨ bs = 4096) :
    (512 ≤ bs ∧ bs ≤ 65536 ∧ bs.isPowerOfTwo) ∧
      Superblock.checkedShl 32 1 (Nat.log2 bs) = some bs ∧
      Superblock.checkedShl 32 1 (Nat.log2 (bs / inodeSize)) = some (bs / inodeSize) ∧
      ((Superblock.checkedShl 32 bs (Nat.log2 (max bs 4096 / bs))).filter fun size =>
        decide (bs ≤ size) && decide (size ≤ Superblock.maxBlocksize)).isSome = true := by
  rcases hbs with rfl | rfl | rfl
  · decide
  · decide
  · decide

theorem planSuperblock_valid
    (hbs : opts.blockSize = 1024 ∨ opts.blockSize = 2048 ∨ opts.blockSize = 4096)
    (hcount : 0 < agcount) (hcount' : agcount < 2 ^ 32) (hblocks : agblocks ≤ 2 ^ 30)
    (hcover : dblocks ≤ agcount * agblocks) (hlogAg : logAg < agcount)
    (hlog : logAgbno + logblocks < agblocks) (hlogPos : 0 < logAgbno) (hchunk : 0 < chunkAgbno) :
    (planSuperblock opts uuid dblocks agcount agblocks logblocks logAg logAgbno
      chunkAgbno).validate = .ok () := by
  have hsize : (agblocks - 1).size ≤ 30 := Nat.size_le.mpr (by omega)
  have hlt : logAgbno < 2 ^ (agblocks - 1).size :=
    lt_of_le_of_lt (Nat.le_sub_one_of_lt (by omega)) (Nat.lt_size_self _)
  have hstart := @logstart_eq agblocks logAg logAgbno (by omega)
  obtain ⟨hsplit, hrest⟩ := mul_add_div_mod logAg hlt
  have hlogged : (planSuperblock opts uuid dblocks agcount agblocks logblocks logAg logAgbno
      chunkAgbno).validateLog = .ok () := by
    have hinternal : (planSuperblock opts uuid dblocks agcount agblocks logblocks logAg logAgbno
        chunkAgbno).hasInternalLog = true := by
      refine decide_eq_true ?_
      show logAg * 2 ^ (agblocks - 1).size ||| logAgbno ≠ 0
      omega
    rw [Superblock.validateLog, if_pos hinternal]
    refine ensure_of ?_
    show (logAg * 2 ^ (agblocks - 1).size ||| logAgbno) / 2 ^ (agblocks - 1).size % 2 ^ 32 < agcount ∧
      (logAg * 2 ^ (agblocks - 1).size ||| logAgbno) % 2 ^ (agblocks - 1).size % 2 ^ 32 + logblocks ≤
        agblocks
    rw [hstart, hsplit, hrest]
    omega
  simp only [Superblock.validate, bind_eq_ok, ensure_eq_ok, exists_and_left, exists_const]
  have hroot : chunkAgbno * 2 ^ Nat.log2 (opts.blockSize / inodeSize) ≠ 0 :=
    Nat.mul_ne_zero (by omega) (Nat.two_pow_pos _).ne'
  obtain ⟨hsane, hblocklog, hinopblog, hdirblklog⟩ := blockSize_checks hbs
  exact ⟨hsane, hblocklog,
    (by decide : 512 ≤ sector ∧ sector ≤ 32768 ∧ sector.isPowerOfTwo),
    (by decide : Superblock.checkedShl 16 1 9 = some sector),
    (by decide : 256 ≤ inodeSize ∧ inodeSize ≤ 2048 ∧ inodeSize.isPowerOfTwo),
    (by decide : Superblock.checkedShl 16 1 9 = some inodeSize),
    rfl, hinopblog, hdirblklog, hcount.ne', (by omega : agblocks ≠ 0),
    ⟨le_refl _, (by omega : (agblocks - 1).size ≤ 32)⟩, hcover, (), hlogged, hroot, rfl⟩

theorem blockSize_bounds {bs : ℕ} (hbs : bs = 1024 ∨ bs = 2048 ∨ bs = 4096) :
    bs < 2 ^ 32 ∧ Nat.log2 bs < 256 ∧ bs / inodeSize < 2 ^ 16 ∧ Nat.log2 (bs / inodeSize) ≤ 3 ∧
      inodesPerChunk * inodeSize / bs < 2 ^ 32 ∧ Nat.log2 (max bs 4096 / bs) < 256 ∧
      inodeClusterBytes / bs < 2 ^ 32 ∧ max (4096 / bs) 1 < 2 ^ 32 := by
  rcases hbs with rfl | rfl | rfl
  · decide
  · decide
  · decide

theorem written_of_v5 {sb : WholeSuperblock} (h : sb.isV5 = true) :
    sb.written = sb.numbers ++ sb.v5Numbers := by
  rw [written, if_pos h]

theorem imaxPct_lt (bytes : ℕ) : imaxPct bytes < 256 := by
  unfold imaxPct
  split
  · decide
  · split
    · decide
    · decide

theorem planSuperblock_fits {fdblocks : ℕ} {sb : WholeSuperblock}
    (hbs : opts.blockSize = 1024 ∨ opts.blockSize = 2048 ∨ opts.blockSize = 4096)
    (hdblocks : dblocks < 2 ^ 64) (hcount : agcount < 2 ^ 32) (hblocks : agblocks ≤ 2 ^ 30)
    (hlogAg : logAg < agcount) (hlog : logAgbno + logblocks < agblocks) (hchunk : chunkAgbno ≤ 2 ^ 30)
    (hfree : fdblocks < 2 ^ 64) (huuid : uuid.length = 16)
    (hsb : sb = { planSuperblock opts uuid dblocks agcount agblocks logblocks logAg logAgbno
      chunkAgbno with fdblocks := fdblocks }) : sb.Fits := by
  have hsize : (agblocks - 1).size ≤ 30 := Nat.size_le.mpr (by omega)
  have hstart : logAg * 2 ^ (agblocks - 1).size ||| logAgbno < 2 ^ 64 := by
    have hle : 2 ^ (agblocks - 1).size ≤ 2 ^ 30 := Nat.pow_le_pow_right (by decide) hsize
    have hmul : logAg * 2 ^ (agblocks - 1).size ≤ 2 ^ 32 * 2 ^ 30 :=
      Nat.mul_le_mul (by omega) hle
    rw [logstart_eq (by omega)]
    omega
  have hpct := imaxPct_lt (dblocks * opts.blockSize)
  obtain ⟨hbs32, hlog, hinop, hinoplog, halign, hdirlog, hspino, hrext⟩ := blockSize_bounds hbs
  have hroot : chunkAgbno * 2 ^ Nat.log2 (opts.blockSize / inodeSize) ≤ 2 ^ 30 * 2 ^ 3 :=
    Nat.mul_le_mul hchunk (Nat.pow_le_pow_right (by decide) hinoplog)
  have hversion : sb.versionnum = 0xb4a5 := by
    rw [hsb]
    rfl
  have hv5 : sb.isV5 = true := by
    rw [Superblock.isV5, hversion]
    decide
  refine ⟨?_, hsb ▸ huuid, hsb ▸ huuid⟩
  rw [written_of_v5 hv5]
  simp only [numbers, v5Numbers, hsb, planSuperblock, List.forall_mem_cons, List.forall_mem_append,
    List.not_mem_nil, false_implies, implies_true]
  and_intros
  all_goals first
    | decide
    | omega

end

namespace Laid

variable {deviceBytes : ℕ} {opts : Options} {uuid : List UInt8} {p : Plan}

section

variable (h : Laid deviceBytes opts uuid p)

include h

theorem blocksize_eq : p.sb.blocksize = opts.blockSize := by
  rw [h.sb]
  rfl

theorem headerBlocks_eq :
    p.headerBlocks = divCeil 2048 opts.blockSize := by
  rw [Plan.headerBlocks, h.blocksize_eq]
  rfl

theorem headerBlocks_pos : 0 < p.headerBlocks := by
  rw [h.headerBlocks_eq]
  rcases h.blocksize with hbs | hbs | hbs
  all_goals
    rw [hbs]
    decide

theorem chunkBlocks_pos : 0 < p.chunkBlocks := by
  rw [Plan.chunkBlocks, h.blocksize_eq]
  rcases h.blocksize with hbs | hbs | hbs
  all_goals
    rw [hbs]
    decide

theorem agblocks_le : p.sb.agblocks ≤ 2 ^ 30 := by
  obtain ⟨last, hdivided, -⟩ := h.divided
  refine hdivided.agblocks_le.trans ?_
  rcases h.blocksize with hbs | hbs | hbs
  all_goals
    rw [hbs]
    decide

theorem getElem?_lengths {ag room : ℕ} (hroom : p.lengths[ag]? = some room) :
    ag < p.sb.agcount ∧ room ≤ p.sb.agblocks := by
  obtain ⟨last, hdivided, hlengths⟩ := h.divided
  have hlt : ag < p.lengths.length := (List.getElem?_eq_some_iff.mp hroom).1
  rw [hlengths, List.length_set, List.length_replicate] at hlt
  refine ⟨hlt, ?_⟩
  rw [hlengths, List.getElem?_set] at hroom
  split at hroom
  · rw [if_pos (by rw [List.length_replicate]; omega)] at hroom
    exact Option.some.inj hroom ▸ hdivided.last_le
  · rw [List.getElem?_replicate, if_pos hlt] at hroom
    exact (Option.some.inj hroom).ge

theorem chunkAgbno_pos : 0 < p.chunkAgbno := by
  rw [h.chunkAgbno]
  have hpos := h.headerBlocks_pos
  exact Nat.mul_pos (divCeil_pos (by omega) h.chunkBlocks_pos) h.chunkBlocks_pos

theorem log_lt :
    p.logAgbno + p.sb.logblocks < p.sb.agblocks := by
  obtain ⟨room, hroom, hfits⟩ := h.logFits
  have hle := (h.getElem?_lengths hroom).2
  omega

theorem chunk_le :
    p.chunkAgbno + p.chunkBlocks ≤ p.sb.agblocks := by
  obtain ⟨room, hroom, hfits⟩ := h.chunkFits
  exact hfits.trans (h.getElem?_lengths hroom).2

theorem logAg_lt : p.logAg < p.sb.agcount := by
  obtain ⟨last, hdivided, -⟩ := h.divided
  rw [h.logAg]
  exact Nat.div_lt_self hdivided.agcount_pos (by decide)

theorem valid : p.sb.validate = .ok () := by
  obtain ⟨last, hdivided, -⟩ := h.divided
  have hvalid := @planSuperblock_valid opts uuid (deviceBytes / opts.blockSize) p.sb.agcount
    p.sb.agblocks p.sb.logblocks p.logAg p.logAgbno p.chunkAgbno h.blocksize hdivided.agcount_pos
    hdivided.agcount_lt h.agblocks_le ?_ ?_ h.log_lt ?_ h.chunkAgbno_pos
  · rw [h.sb]
    exact hvalid
  · have htotal := hdivided.total
    have hle := hdivided.last_le
    have hpos := hdivided.agcount_pos
    calc deviceBytes / opts.blockSize
        = (p.sb.agcount - 1) * p.sb.agblocks + last := htotal.symm
      _ ≤ (p.sb.agcount - 1) * p.sb.agblocks + p.sb.agblocks := Nat.add_le_add_left hle _
      _ = (p.sb.agcount - 1 + 1) * p.sb.agblocks := (Nat.succ_mul _ _).symm
      _ = p.sb.agcount * p.sb.agblocks := by rw [Nat.sub_add_cancel hpos]
  · exact h.logAg_lt
  · rw [h.logAgbno]
    exact Nat.lt_of_lt_of_le h.headerBlocks_pos (Nat.le_add_right _ _)

theorem versionnum_eq : p.sb.versionnum = 0xb4a5 := by
  rw [h.sb]
  rfl

theorem isV5 : p.sb.isV5 = true := by
  rw [Superblock.isV5, h.versionnum_eq]
  decide

theorem storable (hdevice : deviceBytes < 2 ^ 64) (huuid : uuid.length = 16) : p.sb.Storable := by
  obtain ⟨last, hdivided, -⟩ := h.divided
  obtain ⟨free, -, hfree, hsum⟩ := h.counted
  have hfits : p.sb.Fits := planSuperblock_fits h.blocksize
    (lt_of_le_of_lt (Nat.div_le_self _ _) hdevice) hdivided.agcount_lt h.agblocks_le h.logAg_lt
    h.log_lt (((Nat.le_add_right _ _).trans h.chunk_le).trans h.agblocks_le) (hfree ▸ hsum) huuid h.sb
  have hf2 : p.sb.features2 = 0x18a := by
    rw [h.sb]
    rfl
  have hbad : p.sb.badFeatures2 = 0x18a := by
    rw [h.sb]
    rfl
  have hincompat : p.sb.featuresIncompat = 0xb := by
    rw [h.sb]
    rfl
  exact
    { toFits := hfits
      version := by
        rw [h.versionnum_eq]
        decide
      legacy := by
        rw [h.versionnum_eq]
        decide
      features2 := by
        rw [h.versionnum_eq, hf2, hbad, h.isV5]
        decide
      incompat := by
        intro _
        rw [hincompat]
        decide
      valid := h.valid }

end

end Laid

end FsXfs.Mkfs
