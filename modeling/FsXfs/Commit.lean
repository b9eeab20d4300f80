import FsXfs.Mount

/-!
# How a commit ends

One lemma for each program of `Mount`: the state it leaves when it succeeds and when it fails. They
are stated with `emit`, so the events a program adds to the trace can be read off.
-/

namespace FsXfs.Mount

open Log StateProg

set_option autoImplicit false

variable {m m' : Mount} {e : Error}

@[simp] theorem emit_nil (m : Mount) : m.emit [] = m := by
  simp [emit]

@[simp] theorem emit_emit (m : Mount) (as bs : List Event) :
    (m.emit as).emit bs = m.emit (as ++ bs) := by
  simp [emit]

def Reliable (m : Mount) : Prop :=
  (∀ n, m.outcome n = .done) ∧ ∀ n, m.flushes n = true

def DeviceFailed (m : Mount) (e : Error) : Prop :=
  e.isIo = true ∧ ¬m.Reliable

theorem DeviceFailed.isPanic (h : m.DeviceFailed e) : e.isPanic = false := by
  have hio := h.1
  cases e <;> simp [Error.isIo, Error.isPanic] at hio ⊢

/-! ## Single steps -/

variable {α : Type} {u : Unit} {head : Head} {p : Plan} {build : ℕ → List Op}

variable {a : α} {sectors : List (ℕ × Sector)} {tid tail lsn : ℕ}

theorem lift_eq_ok {x : Except Error α} : lift x m = .ok a m' ↔ x = .ok a ∧ m = m' := by
  cases x with
  | ok b => exact pure_eq_ok.trans (by simp)
  | error e =>
    change EStateM.Result.error e m = .ok a m' ↔ _
    simp

theorem lift_eq_error {x : Except Error α} : lift x m = .error e m' ↔ x = .error e ∧ m = m' := by
  cases x with
  | ok b => simp [lift, pure, EStateM.pure]
  | error why =>
    change EStateM.Result.error why m = .error e m' ↔ _
    simp

section Checked

variable {β : Type} {x : Except Error α} {f : α → Prog β} {b : β}

theorem lift_seq_eq_ok :
    (lift x >>= f) m = .ok b m' ↔ ∃ a, x = .ok a ∧ f a m = .ok b m' := by
  rw [seq_eq_ok]
  constructor
  · rintro ⟨a, m₁, hlift, hf⟩
    obtain ⟨hx, rfl⟩ := lift_eq_ok.mp hlift
    exact ⟨a, hx, hf⟩
  · rintro ⟨a, hx, hf⟩
    exact ⟨a, m, lift_eq_ok.mpr ⟨hx, rfl⟩, hf⟩

theorem lift_seq_eq_error :
    (lift x >>= f) m = .error e m' ↔
      (x = .error e ∧ m = m') ∨ ∃ a, x = .ok a ∧ f a m = .error e m' := by
  rw [seq_eq_error, lift_eq_error]
  refine or_congr_right ⟨?_, ?_⟩
  · rintro ⟨a, m₁, hlift, hf⟩
    obtain ⟨hx, rfl⟩ := lift_eq_ok.mp hlift
    exact ⟨a, hx, hf⟩
  · rintro ⟨a, hx, hf⟩
    exact ⟨a, m, lift_eq_ok.mpr ⟨hx, rfl⟩, hf⟩

theorem lift_seq_of_ok (hx : x = .ok a) : (lift x >>= f) m = f a m := by
  rw [hx]
  rfl

theorem lift_seq_of_error (hx : x = .error e) : (lift x >>= f) m = .error e m := by
  rw [hx]
  rfl

variable {q : Prop} [Decidable q] {why : Error} {g : Unit → Prog β}

theorem check_seq (hq : q) : (lift (ensure q why) >>= g) m = g () m :=
  lift_seq_of_ok (ensure_eq_ok.mpr hq)

theorem check_seq_of_not (hq : ¬q) : (lift (ensure q why) >>= g) m = .error why m :=
  lift_seq_of_error (ensure_eq_error.mpr ⟨hq, rfl⟩)

theorem check_seq_eq_ok : (lift (ensure q why) >>= g) m = .ok b m' ↔ q ∧ g () m = .ok b m' := by
  by_cases hq : q
  · rw [check_seq hq]
    simp [hq]
  · rw [check_seq_of_not hq]
    simp [hq]

theorem check_seq_eq_error :
    (lift (ensure q why) >>= g) m = .error e m' ↔
      (¬q ∧ why = e ∧ m = m') ∨ (q ∧ g () m = .error e m') := by
  by_cases hq : q
  · rw [check_seq hq]
    simp [hq]
  · rw [check_seq_of_not hq]
    simp [hq]

end Checked

theorem write_eq_ok {ev : Event} :
    write ev m = .ok u m' ↔ m.outcome m.trace.length = .done ∧ m.emit [ev] = m' := by
  unfold write
  cases m.outcome m.trace.length <;> simp

theorem write_eq_error {ev : Event} (h : write ev m = .error e m') :
    m.DeviceFailed e ∧ ∃ events, events <+: [ev] ∧ m' = m.emit events := by
  unfold write at h
  cases ho : m.outcome m.trace.length with
  | done => simp [ho] at h
  | lost =>
    have hdev : ¬m.Reliable := fun hrel => by simp [hrel.1] at ho
    simp only [ho] at h
    cases h
    exact ⟨⟨rfl, hdev⟩, [], List.nil_prefix, by simp⟩
  | landed =>
    have hdev : ¬m.Reliable := fun hrel => by simp [hrel.1] at ho
    simp only [ho] at h
    cases h
    exact ⟨⟨rfl, hdev⟩, [ev], List.prefix_refl _, rfl⟩

theorem flush_eq_ok : flush m = .ok u m' ↔ m.flushes m.trace.length = true ∧ m = m' := by
  unfold flush
  cases m.flushes m.trace.length <;> simp

theorem flush_eq_error (h : flush m = .error e m') : m.DeviceFailed e ∧ m' = m := by
  unfold flush at h
  cases hf : m.flushes m.trace.length with
  | true => simp [hf] at h
  | false =>
    have hdev : ¬m.Reliable := fun hrel => by simp [hrel.2] at hf
    simp only [hf, Bool.false_eq_true, if_false] at h
    cases h
    exact ⟨⟨rfl, hdev⟩, rfl⟩

theorem writableDevice_eq_ok :
    writableDevice m = .ok u m' ↔ m.writeFailed = false ∧ m.writable = true ∧ m = m' := by
  unfold writableDevice
  cases m.writeFailed <;> cases m.writable <;> simp

theorem writableDevice_eq_error (h : writableDevice m = .error e m') :
    m' = m ∧ e.isPanic = false ∧ (m.writeFailed = true ∨ m.writable = false) := by
  unfold writableDevice at h
  cases hf : m.writeFailed with
  | true =>
    simp only [hf, if_true] at h
    cases h
    exact ⟨rfl, rfl, .inl rfl⟩
  | false =>
    cases hw : m.writable with
    | true => simp [hf, hw] at h
    | false =>
      simp only [hf, hw, Bool.false_eq_true, if_false] at h
      cases h
      exact ⟨rfl, rfl, .inr rfl⟩

theorem orStopWriting_eq_ok {x : Prog α} :
    orStopWriting x m = .ok a m' ↔ x m = .ok a m' := by
  unfold orStopWriting
  cases hx : x m with
  | ok b m₁ => simp
  | error e m₁ => cases e <;> simp

theorem orStopWriting_eq_error {x : Prog α} (h : orStopWriting x m = .error e m') :
    ∃ m₁, x m = .error e m₁ ∧
      (e.isPanic = true ∧ m' = m₁ ∨ e.isPanic = false ∧ m' = { m₁ with writeFailed := true }) := by
  unfold orStopWriting at h
  cases hx : x m with
  | ok b m₁ => simp [hx] at h
  | error e₁ m₁ =>
    rw [hx] at h
    cases hp : e₁.isPanic with
    | true =>
      cases e₁ <;> simp only [Error.isPanic, Bool.false_eq_true] at hp
      cases h
      exact ⟨_, rfl, .inl ⟨rfl, rfl⟩⟩
    | false =>
      have hstop : e = e₁ ∧ m' = { m₁ with writeFailed := true } := by
        cases e₁ <;> simp only [Error.isPanic, Bool.true_eq_false] at hp <;> cases h <;>
          exact ⟨rfl, rfl⟩
      obtain ⟨rfl, rfl⟩ := hstop
      exact ⟨m₁, rfl, .inr ⟨hp, rfl⟩⟩

/-! ## The push -/

def pushEvents (o : Overlay) : List Event :=
  o.pushed.map fun s => .home s.1 s.2

def settle (m : Mount) : Mount :=
  { m.emit (pushEvents m.overlay) with overlay := .empty, oldestRecord := none }

/-- Writes made in order, up to the first that fails. -/
def writeEach : List Event → Prog Unit
  | [] => pure ()
  | ev :: rest => do
    write ev
    writeEach rest

theorem writeEach_eq_ok {events : List Event} (h : writeEach events m = .ok u m') :
    m' = m.emit events := by
  induction events generalizing m with
  | nil =>
    obtain ⟨-, rfl⟩ := pure_eq_ok.mp h
    exact (emit_nil m).symm
  | cons ev events ih =>
    obtain ⟨_, m₁, hw, hrest⟩ := seq_eq_ok.mp h
    obtain ⟨-, rfl⟩ := write_eq_ok.mp hw
    rw [ih hrest, emit_emit]
    rfl

theorem writeEach_eq_error {events : List Event} (h : writeEach events m = .error e m') :
    m.DeviceFailed e ∧ ∃ made, made <+: events ∧ m' = m.emit made := by
  induction events generalizing m with
  | nil => exact absurd h pure_ne_error
  | cons ev events ih =>
    rcases seq_eq_error.mp h with hw | ⟨_, m₁, hw, hrest⟩
    · obtain ⟨hio, made, hpre, rfl⟩ := write_eq_error hw
      exact ⟨hio, made, hpre.trans (List.prefix_append [ev] events), rfl⟩
    · obtain ⟨-, rfl⟩ := write_eq_ok.mp hw
      obtain ⟨hio, made, hpre, rfl⟩ := ih hrest
      exact ⟨hio, ev :: made, List.cons_prefix_cons.mpr ⟨rfl, hpre⟩, by rw [emit_emit]; rfl⟩

theorem pushSectors_eq (sectors : List (ℕ × Sector)) :
    pushSectors sectors = writeEach (sectors.map fun s => .home s.1 s.2) := by
  induction sectors with
  | nil => rfl
  | cons s sectors ih => rw [pushSectors, ih]; rfl

theorem sync_eq_ok (h : sync m = .ok u m') :
    m.writeFailed = false ∧ m.writable = true ∧ m' = m.settle := by
  obtain ⟨_, m₁, hdev, h⟩ := seq_eq_ok.mp h
  obtain ⟨hfail, hwr, rfl⟩ := writableDevice_eq_ok.mp hdev
  obtain ⟨_, m₂, hpush, h⟩ := seq_eq_ok.mp h
  replace hpush := get_seq_eq.mp (orStopWriting_eq_ok.mp hpush)
  obtain ⟨_, m₄, hsec, hpush⟩ := seq_eq_ok.mp hpush
  obtain ⟨_, m₅, hflush, hpush⟩ := seq_eq_ok.mp hpush
  obtain ⟨-, rfl⟩ := flush_eq_ok.mp hflush
  have hsec := writeEach_eq_ok (pushSectors_eq _ ▸ hsec)
  have hpush := modify_eq_ok.mp hpush
  have h := modify_eq_ok.mp h
  subst hsec hpush h
  exact ⟨hfail, hwr, rfl⟩

theorem push_eq_error (h : push m = .error e m') :
    m.DeviceFailed e ∧ ∃ events, events <+: pushEvents m.overlay ∧ m' = m.emit events := by
  replace h := get_seq_eq.mp h
  rcases seq_eq_error.mp h with hsec | ⟨_, m₂, hsec, h⟩
  · exact writeEach_eq_error (pushSectors_eq _ ▸ hsec)
  have hsec := writeEach_eq_ok (pushSectors_eq _ ▸ hsec)
  subst hsec
  rcases seq_eq_error.mp h with hflush | ⟨_, m₃, hflush, h⟩
  · obtain ⟨hio, rfl⟩ := flush_eq_error hflush
    exact ⟨hio, _, List.prefix_refl _, rfl⟩
  · exact absurd h modify_ne_error

theorem sync_eq_error (h : sync m = .error e m') :
    (m' = m ∧ e.isPanic = false ∧ (m.writeFailed = true ∨ m.writable = false)) ∨
      (m.DeviceFailed e ∧ ∃ events, events <+: pushEvents m.overlay ∧
        m' = { m.emit events with writeFailed := true }) := by
  rcases seq_eq_error.mp h with hdev | ⟨_, m₁, hdev, h⟩
  · exact .inl (writableDevice_eq_error hdev)
  obtain ⟨-, -, rfl⟩ := writableDevice_eq_ok.mp hdev
  rcases seq_eq_error.mp h with hpush | ⟨_, m₂, hpush, h⟩
  · obtain ⟨m₃, hpush, hstop⟩ := orStopWriting_eq_error hpush
    obtain ⟨hio, events, hpre, rfl⟩ := push_eq_error hpush
    rcases hstop with ⟨hpanic, -⟩ | ⟨-, rfl⟩
    · exact absurd hpanic (by simp [hio.isPanic])
    · exact .inr ⟨hio, events, hpre, rfl⟩
  · exact absurd h modify_ne_error

theorem sync_failed (h : sync m = .error e m') (hfail : m.writeFailed = false)
    (hwr : m.writable = true) :
    m.DeviceFailed e ∧ ∃ events, events <+: pushEvents m.overlay ∧
      m' = { m.emit events with writeFailed := true } := by
  refine (sync_eq_error h).resolve_left ?_
  rintro ⟨-, -, hstopped⟩
  simp [hfail, hwr] at hstopped

/-! ## Records -/

theorem writeRecord_eq_ok {r : LogRecord} (h : writeRecord r m = .ok u m') :
    divCeil r.len 512 ≤ 64 ∧ m' = m.emit [.log r] := by
  obtain ⟨bytes, henc, h⟩ := lift_seq_eq_ok.mp h
  obtain ⟨_, m₃, hw, h⟩ := seq_eq_ok.mp h
  obtain ⟨-, rfl⟩ := write_eq_ok.mp hw
  obtain ⟨-, rfl⟩ := flush_eq_ok.mp h
  refine ⟨?_, rfl⟩
  by_contra hlarge
  have hspec := encodeRecord_spec m.crc32c m.sb.uuid r
  rw [if_pos (by omega)] at hspec
  obtain ⟨why, hwhy⟩ := hspec
  rw [hwhy] at henc
  cases henc

theorem writeRecord_eq_error {r : LogRecord} (h : writeRecord r m = .error e m') :
    (64 < divCeil r.len 512 ∧ e.isPanic = true ∧ m' = m) ∨
      (divCeil r.len 512 ≤ 64 ∧ m.DeviceFailed e ∧ ∃ events, events <+: [Event.log r] ∧
        m' = m.emit events) := by
  have hspec := encodeRecord_spec m.crc32c m.sb.uuid r
  replace h := get_seq_eq.mp h
  by_cases hlarge : 64 < divCeil r.len 512
  · rw [if_pos hlarge] at hspec
    obtain ⟨why, hwhy⟩ := hspec
    rw [lift_seq_of_error hwhy] at h
    cases h
    exact .inl ⟨hlarge, rfl, rfl⟩
  · rw [if_neg hlarge] at hspec
    obtain ⟨bytes, hbytes, -⟩ := hspec
    refine .inr ⟨by omega, ?_⟩
    rw [lift_seq_of_ok hbytes] at h
    rcases seq_eq_error.mp h with hw | ⟨_, m₃, hw, h⟩
    · exact write_eq_error hw
    obtain ⟨-, rfl⟩ := write_eq_ok.mp hw
    obtain ⟨hio, rfl⟩ := flush_eq_error h
    exact ⟨hio, _, List.prefix_refl _, rfl⟩

def padRecord (head : Head) (tid tail : ℕ) : LogRecord :=
  recordAt head tid (padOps tid) tail ((head.freeBlocks - 1) * 512)

theorem appendPad_eq_ok (h : appendPad head tid tail m = .ok lsn m') :
    2 ≤ head.freeBlocks ∧ head.freeBlocks ≤ 65 ∧ m' = m.emit [.log (padRecord head tid tail)] := by
  obtain ⟨_, hens, h⟩ := lift_seq_eq_ok.mp h
  obtain ⟨_, m₂, hw, h⟩ := seq_eq_ok.mp h
  obtain ⟨-, rfl⟩ := pure_eq_ok.mp h
  obtain ⟨h64, rfl⟩ := writeRecord_eq_ok hw
  have hlen := ensure_eq_ok.mp hens
  rw [payload_padOps_length] at hlen
  change divCeil ((head.freeBlocks - 1) * 512) 512 ≤ 64 at h64
  rw [divCeil_mul_self _ (by decide)] at h64
  exact ⟨by omega, by omega, rfl⟩

theorem appendPad_eq_error (h : appendPad head tid tail m = .error e m') :
    (head.freeBlocks ≤ 1 ∧ e.isPanic = false ∧ e.isIo = false ∧ m' = m) ∨
      (65 < head.freeBlocks ∧ e.isPanic = true ∧ m' = m) ∨
      (2 ≤ head.freeBlocks ∧ head.freeBlocks ≤ 65 ∧ m.DeviceFailed e ∧
        ∃ events, events <+: [Event.log (padRecord head tid tail)] ∧ m' = m.emit events) := by
  rcases check_seq_eq_error.mp h with ⟨hshort, rfl, rfl⟩ | ⟨hlen, h⟩
  · rw [payload_padOps_length] at hshort
    exact .inl ⟨by omega, rfl, rfl, rfl⟩
  rw [payload_padOps_length] at hlen
  rcases seq_eq_error.mp h with hw | ⟨_, m₂, hw, h⟩
  · have hblocks : divCeil (recordAt head tid (padOps tid) tail ((head.freeBlocks - 1) * 512)).len 512
        = head.freeBlocks - 1 := divCeil_mul_self _ (by decide)
    rcases writeRecord_eq_error hw with ⟨hlarge, hpanic, rfl⟩ | ⟨hle, hio, hevents⟩
    · exact .inr (.inl ⟨by omega, hpanic, rfl⟩)
    · exact .inr (.inr ⟨by omega, by omega, hio, hevents⟩)
  · exact absurd h pure_ne_error

theorem recordAt_blocks {n : ℕ} {ops : List Op} (h : head.iclogSize ≤ 32768) :
    (recordAt head tid ops tail (n * 512)).blocks = 1 + n := by
  have hheader : (recordAt head tid ops tail (n * 512)).headerBlocks = 1 := if_pos h
  rw [LogRecord.blocks, hheader]
  change 1 + divCeil (n * 512) 512 = 1 + n
  rw [divCeil_mul_self _ (by decide)]

/-! ## A checkpoint's records -/

section

variable {logsunit iclogSize tid tail : ℕ}

def Sized (logsunit iclogSize tid : ℕ) (parts : List (List Op × ℕ)) : Prop :=
  ∀ part ∈ parts, recordBlocksForLog tid part.1 iclogSize logsunit = .ok part.2

def blocksOf (parts : List (List Op × ℕ)) : ℕ :=
  (parts.map Prod.snd).sum

def placed (tid tail : ℕ) : List (List Op × ℕ) → Head → List LogRecord
  | [], _ => []
  | (group, used) :: rest, head =>
    recordAt head tid group tail ((used - 1) * 512) :: placed tid tail rest (nextAfter head used)

def headAfter : List (List Op × ℕ) → Head → Head
  | [], head => head
  | (_, used) :: rest, head => headAfter rest (nextAfter head used)

def Aligned (m : Mount) (head : Head) : Prop :=
  head.block % (logAlignment m.sb.logsunit / 512) = 0

variable {head : Head} {group : List Op} {used : ℕ}

theorem appendAtWithTail_eq_ok {used : ℕ}
    (hsize : recordBlocksForLog tid group head.iclogSize m.sb.logsunit = .ok used)
    (h : appendAtWithTail head tid group tail m = .ok lsn m') :
    lsn = lsnOf head ∧ m.Aligned head ∧
      m' = m.emit [.log (recordAt head tid group tail ((used - 1) * 512))] := by
  obtain ⟨cap, -, h⟩ := lift_seq_eq_ok.mp h
  obtain ⟨_, -, h⟩ := lift_seq_eq_ok.mp h
  obtain ⟨blocks, hblocks, h⟩ := lift_seq_eq_ok.mp h
  obtain rfl := Except.ok.inj (hsize.symm.trans hblocks)
  obtain ⟨halign, h⟩ := check_seq_eq_ok.mp h
  obtain ⟨_, -, h⟩ := lift_seq_eq_ok.mp h
  obtain ⟨_, m₇, hw, h⟩ := seq_eq_ok.mp h
  obtain ⟨rfl, rfl⟩ := pure_eq_ok.mp h
  exact ⟨rfl, halign, (writeRecord_eq_ok hw).2⟩

theorem appendAtWithTail_eq_error
    (hsize : recordBlocksForLog tid group head.iclogSize m.sb.logsunit = .ok used)
    (hfree : used ≤ head.freeBlocks) (h : appendAtWithTail head tid group tail m = .error e m') :
    (¬m.Aligned head ∧ e.isPanic = false ∧ e.isIo = false ∧ m' = m) ∨
      (m.Aligned head ∧ m.DeviceFailed e ∧ ∃ events,
        events <+: [Event.log (recordAt head tid group tail ((used - 1) * 512))] ∧
        m' = m.emit events) := by
  obtain ⟨cap, hcap, hlen, -, -, hle, -⟩ := recordBlocksForLog_spec hsize
  replace h := get_seq_eq.mp h
  rw [lift_seq_of_ok hcap] at h
  rw [check_seq hlen] at h
  rw [lift_seq_of_ok hsize] at h
  rcases check_seq_eq_error.mp h with ⟨hmis, rfl, rfl⟩ | ⟨halign, h⟩
  · exact .inl ⟨hmis, rfl, rfl, rfl⟩
  rw [check_seq hfree] at h
  rcases seq_eq_error.mp h with hw | ⟨_, m₇, hw, h⟩
  · rcases writeRecord_eq_error hw with ⟨hlarge, -⟩ | ⟨-, hio, hevents⟩
    · have hspec := maxPayload_spec hcap
      change 64 < divCeil ((used - 1) * 512) 512 at hlarge
      rw [divCeil_mul_self _ (by decide)] at hlarge
      omega
    · exact .inr ⟨halign, hio, hevents⟩
  · exact absurd h pure_ne_error

theorem Aligned.nextAfter (ha : m.Aligned head)
    (hsize : recordBlocksForLog tid group iclogSize m.sb.logsunit = .ok used) :
    m.Aligned (nextAfter head used) := by
  obtain ⟨-, -, -, -, -, -, hdvd⟩ := recordBlocksForLog_spec hsize
  exact Nat.mod_eq_zero_of_dvd ((Nat.dvd_of_mod_eq_zero ha).add hdvd)

variable {parts : List (List Op × ℕ)}

theorem appendRecords_eq_ok {head at_ : Head} {lsn₀ : ℕ}
    (hsized : Sized m.sb.logsunit head.iclogSize tid parts)
    (h : appendRecords tid tail parts head lsn₀ m = .ok (lsn, at_) m') :
    at_ = headAfter parts head ∧ m' = m.emit ((placed tid tail parts head).map .log) ∧
      (parts ≠ [] → m.Aligned head) ∧
      lsn = ((placed tid tail parts head).map LogRecord.lsn).getLastD lsn₀ := by
  induction parts generalizing m head lsn₀ with
  | nil =>
    obtain ⟨hval, rfl⟩ := pure_eq_ok.mp h
    cases hval
    exact ⟨rfl, (emit_nil m).symm, fun hne => absurd rfl hne, rfl⟩
  | cons part parts ih =>
    obtain ⟨group, used⟩ := part
    obtain ⟨lsn₁, m₁, hone, hrest⟩ := seq_eq_ok.mp h
    have hsize := hsized _ List.mem_cons_self
    obtain ⟨rfl, halign, rfl⟩ := appendAtWithTail_eq_ok hsize (orStopWriting_eq_ok.mp hone)
    have hsized' : Sized m.sb.logsunit (Mount.nextAfter head used).iclogSize tid parts :=
      fun part hp => hsized part (List.mem_cons_of_mem _ hp)
    obtain ⟨hat, hm', -, hlsn⟩ := ih (m := m.emit _) hsized' hrest
    refine ⟨hat, ?_, fun _ => halign, ?_⟩
    · rw [hm', emit_emit]
      rfl
    · rw [hlsn, placed, List.map_cons, List.getLastD_cons]
      rfl

theorem appendRecords_eq_error {lsn₀ : ℕ} (hsized : Sized m.sb.logsunit head.iclogSize tid parts)
    (hfree : blocksOf parts ≤ head.freeBlocks)
    (h : appendRecords tid tail parts head lsn₀ m = .error e m') :
    (¬m.Aligned head ∧ e.isPanic = false ∧ e.isIo = false ∧ m' = { m with writeFailed := true }) ∨
      (m.Aligned head ∧ m.DeviceFailed e ∧ ∃ events,
        events <+: (placed tid tail parts head).map Event.log ∧
        m' = { m.emit events with writeFailed := true }) := by
  induction parts generalizing m head lsn₀ with
  | nil => exact absurd h pure_ne_error
  | cons part parts ih =>
    obtain ⟨group, used⟩ := part
    have hsize := hsized _ List.mem_cons_self
    simp only [blocksOf, List.map_cons, List.sum_cons] at hfree
    rcases seq_eq_error.mp h with hone | ⟨lsn₁, m₁, hone, hrest⟩
    · obtain ⟨m₁, hone, hstop⟩ := orStopWriting_eq_error hone
      rcases appendAtWithTail_eq_error hsize (by omega) hone with
        ⟨hmis, hpanic, hio, rfl⟩ | ⟨halign, hio, events, hpre, rfl⟩
      · rcases hstop with ⟨hp, -⟩ | ⟨-, rfl⟩
        · rw [hpanic] at hp
          cases hp
        · exact .inl ⟨hmis, hpanic, hio, rfl⟩
      · rcases hstop with ⟨hp, -⟩ | ⟨-, rfl⟩
        · exact absurd hp (by simp [hio.isPanic])
        · refine .inr ⟨halign, hio, events, hpre.trans ?_, rfl⟩
          exact List.cons_prefix_cons.mpr ⟨rfl, List.nil_prefix⟩
    · obtain ⟨rfl, halign, rfl⟩ := appendAtWithTail_eq_ok hsize (orStopWriting_eq_ok.mp hone)
      have hsized' : Sized m.sb.logsunit (Mount.nextAfter head used).iclogSize tid parts :=
        fun part hp => hsized part (List.mem_cons_of_mem _ hp)
      have hfree' : blocksOf parts ≤ (Mount.nextAfter head used).freeBlocks :=
        Nat.le_sub_of_add_le (by rw [Nat.add_comm]; exact hfree)
      rcases ih (m := m.emit _) hsized' hfree' hrest with ⟨hmis, -⟩ | ⟨-, hio, events, hpre, rfl⟩
      · exact absurd (halign.nextAfter hsize) hmis
      · refine .inr ⟨halign, hio, _ :: events, List.cons_prefix_cons.mpr ⟨rfl, hpre⟩, ?_⟩
        rw [emit_emit]
        rfl

end

/-! ## The plan -/

structure Planned (m : Mount) (build : ℕ → List Op) (p : Plan) : Prop where
  head : m.findHead = .ok p.head
  tid : p.tid = transactionId p.head
  groups : p.parts.map Prod.fst = p.groups
  flatten : p.groups.flatten = build p.tid
  nonempty : p.parts ≠ []
  sized : Sized m.sb.logsunit p.head.iclogSize p.tid p.parts
  blocks : blocksOf p.parts = p.needed
  fits : ∃ cap, maxPayload p.head.iclogSize = .ok cap

theorem plan_spec (h : m.plan build = .ok p) : Planned m build p := by
  simp only [plan, bind_eq_ok, ensure_eq_ok, pure, Except.pure, Except.ok.injEq] at h
  obtain ⟨head, hhead, groups, hgroups, lengths, hlengths, -, -, rfl⟩ := h
  obtain ⟨hlen, hsized⟩ := mapM_eq_ok hlengths
  obtain ⟨cap, hcap, hflat, hne, -⟩ := splitIntoRecords_spec hgroups
  have hfst : (groups.zip lengths).map Prod.fst = groups := List.map_fst_zip hlen.ge
  refine ⟨hhead, rfl, hfst, hflat, ?_, hsized, ?_, cap, hcap⟩
  · intro hnil
    change groups.zip lengths = [] at hnil
    rw [hnil] at hfst
    exact hne hfst.symm
  · rw [blocksOf, Plan.parts, List.map_snd_zip hlen.le]
    rfl

/-! ## The wrap -/

def gapRecords (p : Plan) : List LogRecord :=
  if 0 < p.head.freeBlocks then [padRecord p.head p.tid (lsnOf p.head)] else []

theorem padGap_eq_ok (h : padGap p m.settle = .ok u m') :
    p.head.freeBlocks ≠ 1 ∧ p.head.freeBlocks ≤ 65 ∧
      m' = m.settle.emit ((gapRecords p).map .log) := by
  unfold padGap at h
  unfold gapRecords
  split at h
  · next hfree =>
    replace h := get_seq_eq.mp h
    obtain ⟨_, m₂, hpad, h⟩ := seq_eq_ok.mp h
    obtain ⟨-, rfl⟩ := pure_eq_ok.mp h
    obtain ⟨hlo, hhi, rfl⟩ := appendPad_eq_ok (orStopWriting_eq_ok.mp hpad)
    rw [if_pos hfree]
    exact ⟨by omega, hhi, rfl⟩
  · next hfree =>
    obtain ⟨-, rfl⟩ := pure_eq_ok.mp h
    rw [if_neg hfree]
    exact ⟨by omega, by omega, (emit_nil _).symm⟩

theorem padGap_eq_error (h : padGap p m.settle = .error e m') :
    (p.head.freeBlocks = 1 ∧ e.isPanic = false ∧ e.isIo = false ∧
        m' = { m.settle with writeFailed := true }) ∨
      (65 < p.head.freeBlocks ∧ e.isPanic = true ∧ m' = m.settle) ∨
      (2 ≤ p.head.freeBlocks ∧ p.head.freeBlocks ≤ 65 ∧ m.DeviceFailed e ∧
        ∃ events, events <+: (gapRecords p).map Event.log ∧
          m' = { m.settle.emit events with writeFailed := true }) := by
  unfold padGap at h
  split at h
  · next hfree =>
    replace h := get_seq_eq.mp h
    rcases seq_eq_error.mp h with hpad | ⟨_, m₂, hpad, h⟩
    · obtain ⟨m₂, hpad, hstop⟩ := orStopWriting_eq_error hpad
      rcases appendPad_eq_error hpad with
        ⟨hone, hpanic, hio, rfl⟩ | ⟨hlarge, hpanic, rfl⟩ | ⟨hlo, hhi, hio, events, hpre, rfl⟩
      · rcases hstop with ⟨hp, -⟩ | ⟨-, rfl⟩
        · rw [hpanic] at hp
          cases hp
        · exact .inl ⟨by omega, hpanic, hio, rfl⟩
      · rcases hstop with ⟨-, rfl⟩ | ⟨hp, -⟩
        · exact .inr (.inl ⟨hlarge, hpanic, rfl⟩)
        · rw [hpanic] at hp
          cases hp
      · rcases hstop with ⟨hp, -⟩ | ⟨-, rfl⟩
        · exact absurd hp (by simp [hio.isPanic])
        · refine .inr (.inr ⟨hlo, hhi, hio, events, ?_, rfl⟩)
          rw [gapRecords, if_pos hfree]
          exact hpre
    · exact absurd h pure_ne_error
  · exact absurd h pure_ne_error

def wrapped (m : Mount) (p : Plan) : Mount :=
  { m.settle.emit ((gapRecords p).map .log) with wraps := m.wraps + 1 }

theorem wrapRing_eq_ok (h : wrapRing p m = .ok head m') :
    head = wrappedHead p.head ∧ p.head.freeBlocks ≠ 1 ∧ p.head.freeBlocks ≤ 65 ∧
      p.head.cycle + 1 < 2 ^ 32 ∧ m' = m.wrapped p := by
  obtain ⟨_, m₁, hsync, h⟩ := seq_eq_ok.mp h
  obtain ⟨-, -, rfl⟩ := sync_eq_ok hsync
  obtain ⟨_, m₂, hpad, h⟩ := seq_eq_ok.mp h
  obtain ⟨hne, hhi, rfl⟩ := padGap_eq_ok hpad
  obtain ⟨hcycle, h⟩ := check_seq_eq_ok.mp h
  obtain ⟨_, m₄, hmod, h⟩ := seq_eq_ok.mp h
  have hmod := modify_eq_ok.mp hmod
  obtain ⟨rfl, rfl⟩ := pure_eq_ok.mp h
  exact ⟨rfl, hne, hhi, hcycle, hmod.symm⟩

theorem wrapRing_eq_error (hw : m.writeFailed = false) (hr : m.writable = true)
    (h : wrapRing p m = .error e m') :
    (m.DeviceFailed e ∧ ∃ events, events <+: pushEvents m.overlay ∧
        m' = { m.emit events with writeFailed := true }) ∨
      (padGap p m.settle = .error e m') ∨
      (e.isPanic = false ∧ e.isIo = false ∧ p.head.freeBlocks ≠ 1 ∧ p.head.freeBlocks ≤ 65 ∧
        2 ^ 32 ≤ p.head.cycle + 1 ∧ m' = m.settle.emit ((gapRecords p).map .log)) := by
  rcases seq_eq_error.mp h with hsync | ⟨_, m₁, hsync, h⟩
  · exact .inl (sync_failed hsync hw hr)
  obtain ⟨-, -, rfl⟩ := sync_eq_ok hsync
  rcases seq_eq_error.mp h with hpad | ⟨_, m₂, hpad, h⟩
  · exact .inr (.inl hpad)
  obtain ⟨hne, hhi, rfl⟩ := padGap_eq_ok hpad
  rcases check_seq_eq_error.mp h with ⟨hcycle, rfl, rfl⟩ | ⟨-, h⟩
  · exact .inr (.inr ⟨rfl, rfl, hne, hhi, Nat.le_of_not_lt hcycle, rfl⟩)
  exact absurd (modify_seq_eq.mp h) pure_ne_error

/-! ## The whole commit -/

def chosenHead (p : Plan) : Head :=
  if p.wraps then wrappedHead p.head else p.head

def entered (m : Mount) (p : Plan) : Mount :=
  if p.wraps then m.wrapped p else m

def tailFor (m : Mount) (p : Plan) : ℕ :=
  (m.entered p).oldestRecord.getD (lsnOf (chosenHead p))

def recordsOf (m : Mount) (p : Plan) : List LogRecord :=
  placed p.tid (m.tailFor p) p.parts (chosenHead p)

def logged (m : Mount) (p : Plan) : Mount :=
  { (m.entered p).emit ((m.recordsOf p).map .log) with
    oldestRecord := some (m.tailFor p)
    loggedAnything := true
    nextHead := some (headAfter p.parts (chosenHead p)) }

def CanEnter (p : Plan) : Prop :=
  p.wraps = true → p.head.freeBlocks ≠ 1 ∧ p.head.freeBlocks ≤ 65 ∧ p.head.cycle + 1 < 2 ^ 32

@[simp] theorem entered_sb (m : Mount) (p : Plan) : (m.entered p).sb = m.sb := by
  unfold entered
  split <;> rfl

@[simp] theorem entered_writable (m : Mount) (p : Plan) : (m.entered p).writable = m.writable := by
  unfold entered
  split <;> rfl

@[simp] theorem entered_writeFailed (m : Mount) (p : Plan) :
    (m.entered p).writeFailed = m.writeFailed := by
  unfold entered
  split <;> rfl

theorem deviceFailed_entered (p : Plan) : (m.entered p).DeviceFailed e ↔ m.DeviceFailed e := by
  unfold entered
  split <;> exact Iff.rfl

theorem chosenHead_iclogSize (p : Plan) : (chosenHead p).iclogSize = p.head.iclogSize := by
  unfold chosenHead
  split <;> rfl

theorem chooseHead_eq_ok (h : chooseHead p m = .ok head m') :
    head = chosenHead p ∧ m' = m.entered p ∧ CanEnter p := by
  unfold chooseHead at h
  unfold chosenHead entered CanEnter
  cases hwraps : p.wraps with
  | true =>
    rw [hwraps, if_pos rfl] at h
    obtain ⟨rfl, hne, hhi, hcycle, rfl⟩ := wrapRing_eq_ok h
    exact ⟨rfl, rfl, fun _ => ⟨hne, hhi, hcycle⟩⟩
  | false =>
    rw [hwraps, if_neg Bool.false_ne_true] at h
    obtain ⟨rfl, rfl⟩ := pure_eq_ok.mp h
    exact ⟨rfl, rfl, fun hf => absurd hf Bool.false_ne_true⟩

theorem chooseHead_eq_error (h : chooseHead p m = .error e m') :
    p.wraps = true ∧ wrapRing p m = .error e m' := by
  unfold chooseHead at h
  cases hwraps : p.wraps with
  | true =>
    rw [hwraps, if_pos rfl] at h
    exact ⟨rfl, h⟩
  | false =>
    rw [hwraps, if_neg Bool.false_ne_true] at h
    exact absurd h pure_ne_error

/-- A commit that succeeds has written every record where the plan puts it, and pushed if the
overlay had reached its bound before the caller adds anything to it. -/
theorem commitRecord_eq_ok (h : commitRecord build m = .ok lsn m') :
    ∃ p, m.plan build = .ok p ∧ m.writeFailed = false ∧ m.writable = true ∧ CanEnter p ∧
      p.needed ≤ (chosenHead p).freeBlocks ∧ (m.entered p).Aligned (chosenHead p) ∧
      lsn = ((m.recordsOf p).map LogRecord.lsn).getLastD 0 ∧
      m' = if maxDirtyBytes ≤ (m.entered p).overlay.bytes then (m.logged p).settle
        else m.logged p := by
  obtain ⟨_, m₁, hdev, h⟩ := seq_eq_ok.mp h
  obtain ⟨hfail, hwr, rfl⟩ := writableDevice_eq_ok.mp hdev
  obtain ⟨p, hplan, h⟩ := lift_seq_eq_ok.mp h
  obtain ⟨head, m₄, hchoose, h⟩ := seq_eq_ok.mp h
  obtain ⟨rfl, rfl, hcan⟩ := chooseHead_eq_ok hchoose
  obtain ⟨hfits, h⟩ := check_seq_eq_ok.mp h
  replace h := get_seq_eq.mp h
  obtain ⟨⟨lsn', at_⟩, m₇, happ, h⟩ := seq_eq_ok.mp h
  have hp := plan_spec hplan
  have hsized : Sized (m.entered p).sb.logsunit (chosenHead p).iclogSize p.tid p.parts := by
    rw [entered_sb, chosenHead_iclogSize]
    exact hp.sized
  obtain ⟨rfl, rfl, halign, rfl⟩ := appendRecords_eq_ok hsized happ
  replace h := modify_seq_eq.mp h
  replace h := get_seq_eq.mp h
  refine ⟨p, hplan, hfail, hwr, hcan, hfits, halign hp.nonempty, ?_⟩
  split at h
  · next hbound =>
    obtain ⟨_, m₁₀, hsync, h⟩ := seq_eq_ok.mp h
    obtain ⟨rfl, rfl⟩ := pure_eq_ok.mp h
    obtain ⟨-, -, rfl⟩ := sync_eq_ok hsync
    exact ⟨rfl, (if_pos (show maxDirtyBytes ≤ (m.entered p).overlay.bytes from hbound)).symm⟩
  · next hbound =>
    obtain ⟨rfl, rfl⟩ := pure_eq_ok.mp h
    exact ⟨rfl, (if_neg (show ¬maxDirtyBytes ≤ (m.entered p).overlay.bytes from hbound)).symm⟩

/-- Every way a commit fails once its plan is made, short of a wrap that fails. -/
inductive Stopped (m : Mount) (p : Plan) : Error → Mount → Prop
  | tooLarge {e : Error} (hlarge : (chosenHead p).freeBlocks < p.needed)
      (hpanic : e.isPanic = false) (hio : e.isIo = false) : Stopped m p e (m.entered p)
  | offStripe {e : Error} (hmis : ¬(m.entered p).Aligned (chosenHead p))
      (hpanic : e.isPanic = false) (hio : e.isIo = false) :
      Stopped m p e { m.entered p with writeFailed := true }
  | record {e : Error} {events : List Event} (hfits : p.needed ≤ (chosenHead p).freeBlocks)
      (hio : m.DeviceFailed e) (hpre : events <+: (m.recordsOf p).map Event.log) :
      Stopped m p e { (m.entered p).emit events with writeFailed := true }
  | push {e : Error} {events : List Event} (hfits : p.needed ≤ (chosenHead p).freeBlocks)
      (hbound : maxDirtyBytes ≤ (m.entered p).overlay.bytes)
      (hio : m.DeviceFailed e) (hpre : events <+: pushEvents (m.entered p).overlay) :
      Stopped m p e { (m.logged p).emit events with writeFailed := true }

theorem commitRecord_eq_error (h : commitRecord build m = .error e m') :
    (m' = m ∧ (m.plan build = .error e ∨
        e.isPanic = false ∧ (m.writeFailed = true ∨ m.writable = false))) ∨
      ∃ p, m.plan build = .ok p ∧ m.writeFailed = false ∧ m.writable = true ∧
        ((p.wraps = true ∧ wrapRing p m = .error e m') ∨ (CanEnter p ∧ Stopped m p e m')) := by
  rcases seq_eq_error.mp h with hdev | ⟨_, m₁, hdev, h⟩
  · obtain ⟨rfl, hno⟩ := writableDevice_eq_error hdev
    exact .inl ⟨rfl, .inr hno⟩
  obtain ⟨hfail, hwr, rfl⟩ := writableDevice_eq_ok.mp hdev
  rcases lift_seq_eq_error.mp h with ⟨hplan, rfl⟩ | ⟨p, hplan, h⟩
  · exact .inl ⟨rfl, .inl hplan⟩
  refine .inr ⟨p, hplan, hfail, hwr, ?_⟩
  rcases seq_eq_error.mp h with hchoose | ⟨head, m₄, hchoose, h⟩
  · exact .inl (chooseHead_eq_error hchoose)
  obtain ⟨rfl, rfl, hcan⟩ := chooseHead_eq_ok hchoose
  refine .inr ⟨hcan, ?_⟩
  rcases check_seq_eq_error.mp h with ⟨hlarge, rfl, rfl⟩ | ⟨hfits, h⟩
  · exact .tooLarge (Nat.lt_of_not_le hlarge) rfl rfl
  replace h := get_seq_eq.mp h
  have hp := plan_spec hplan
  have hsized : Sized (m.entered p).sb.logsunit (chosenHead p).iclogSize p.tid p.parts := by
    rw [entered_sb, chosenHead_iclogSize]
    exact hp.sized
  rcases seq_eq_error.mp h with happ | ⟨⟨lsn, at_⟩, m₇, happ, h⟩
  · rcases appendRecords_eq_error hsized (by rw [hp.blocks]; exact hfits) happ with
      ⟨hmis, hpanic, hio, rfl⟩ | ⟨-, hio, events, hpre, rfl⟩
    · exact .offStripe hmis hpanic hio
    · exact .record hfits ((deviceFailed_entered p).mp hio) hpre
  obtain ⟨rfl, rfl, -, -⟩ := appendRecords_eq_ok hsized happ
  replace h := modify_seq_eq.mp h
  replace h := get_seq_eq.mp h
  split at h
  · next hbound =>
    rcases seq_eq_error.mp h with hsync | ⟨_, m₁₀, hsync, h⟩
    · obtain ⟨hio, events, hpre, rfl⟩ := sync_failed hsync
        ((entered_writeFailed m p).trans hfail) ((entered_writable m p).trans hwr)
      exact .push hfits hbound ((deviceFailed_entered p).mp hio) hpre
    · exact absurd h pure_ne_error
  · exact absurd h pure_ne_error

end FsXfs.Mount
