import FsXfs.Lib.Bytes

/-!
# What every part of the driver shares

The driver's error type (`error.rs`), the checks it is raised by, and the device a volume is read
from. Machine integers are `ℕ`; where a width matters the model says so at the place it matters:
`wrap64` for the arithmetic a release build wraps, `saturate64` for the saturating operations and
an explicit test for the checked ones.
-/

namespace FsXfs

set_option autoImplicit false

/-- `error::Error`. `panicked` is not one of the source's variants: it stands for an `assert!` or
an arithmetic panic, which unwinds past every `Result`. -/
inductive Error where
  | io (why : String)
  | notXfs (magic : ℕ)
  | badSuperblock (why : String)
  | invalidGeometry (why : String)
  | checksumMismatch (what : String) (block : ℕ)
  | blockIdentityMismatch (what : String) (expected found : ℕ)
  | unsupportedFeature (why : String)
  | noSpace (why : String)
  | corruptLog (why : String)
  | dirtyLog
  | notFound
  | alreadyExists
  | notADirectory
  | directoryNotEmpty
  | notAFile
  | readOnly
  | realtimeDeviceAbsent (ino : ℕ)
  | internal (why : String)
  | panicked (why : String)
  deriving DecidableEq, Repr

def Error.isIo : Error → Bool
  | .io _ => true
  | _ => false

def Error.isPanic : Error → Bool
  | .panicked _ => true
  | _ => false

def ensure (p : Prop) [Decidable p] (e : Error) : Except Error Unit :=
  if p then .ok () else .error e

variable {e : Error} {p : Prop} {β α : Type}

@[simp] theorem ensure_eq_ok [Decidable p] {u : Unit} : ensure p e = .ok u ↔ p := by
  unfold ensure
  split <;> simp_all

theorem ensure_eq_error [Decidable p] {e why : Error} : ensure p why = .error e ↔ ¬p ∧ why = e := by
  unfold ensure
  split
  · simp_all
  · simp_all

theorem ensure_of [Decidable p] (h : p) : ensure p e = .ok () :=
  if_pos h

variable {x : Except Error α} {f : α → Except Error β} {b : β} {as : List α} {bs : List β} {a : α}

@[simp] theorem bind_eq_ok :
    (x >>= f) = .ok b ↔ ∃ a, x = .ok a ∧ f a = .ok b := by
  cases x with
  | error e => simp [bind, Except.bind]
  | ok a => simp [bind, Except.bind]

theorem foldlM_invariant {σ α : Type} {f : σ → α → Except Error σ} {P : σ → Prop} {xs : List α}
    {s s' : σ} (hstep : ∀ s s' x, x ∈ xs → P s → f s x = .ok s' → P s') (hs : P s)
    (h : xs.foldlM f s = .ok s') : P s' := by
  induction xs generalizing s with
  | nil => exact Except.ok.inj h ▸ hs
  | cons x xs ih =>
    obtain ⟨mid, hmid, h⟩ := bind_eq_ok.mp h
    exact ih (fun s s' y hy => hstep s s' y (List.mem_cons_of_mem _ hy))
      (hstep s mid x List.mem_cons_self hs hmid) h

theorem mapM_eq_ok (h : as.mapM f = .ok bs) :
    bs.length = as.length ∧ ∀ ab ∈ as.zip bs, f ab.1 = .ok ab.2 := by
  induction as generalizing bs with
  | nil =>
    cases h
    simp
  | cons a as ih =>
    simp only [List.mapM_cons, bind_eq_ok, pure, Except.pure, Except.ok.injEq] at h
    obtain ⟨b, hb, bs', hbs, rfl⟩ := h
    obtain ⟨hlen, hall⟩ := ih hbs
    refine ⟨by simp [hlen], ?_⟩
    intro ab hab
    rcases List.mem_cons.mp hab with rfl | hab
    · exact hb
    · exact hall ab hab

theorem mapM_exists_ok (h : ∀ a ∈ as, ∃ b, f a = .ok b) : ∃ bs, as.mapM f = .ok bs := by
  induction as with
  | nil => exact ⟨[], rfl⟩
  | cons a as ih =>
    obtain ⟨b, hb⟩ := h a List.mem_cons_self
    obtain ⟨bs, hbs⟩ := ih fun a' ha => h a' (List.mem_cons_of_mem _ ha)
    refine ⟨b :: bs, ?_⟩
    rw [List.mapM_cons, hb, hbs]
    rfl

theorem mapM_getElem (h : as.mapM f = .ok bs) {i : ℕ} (ha : i < as.length) (hb : i < bs.length) :
    f as[i] = .ok bs[i] := by
  refine (mapM_eq_ok h).2 _ (List.mem_iff_getElem.mpr ⟨i, ?_, List.getElem_zip ..⟩)
  rw [List.length_zip]
  omega

theorem mem_of_mapM_eq_ok (h : as.mapM f = .ok bs) (hb : b ∈ bs) : ∃ a ∈ as, f a = .ok b := by
  obtain ⟨i, hi, rfl⟩ := List.getElem_of_mem hb
  have hi' : i < as.length := (mapM_eq_ok h).1 ▸ hi
  exact ⟨as[i], List.getElem_mem hi', mapM_getElem h hi' hi⟩

theorem ok_of_mapM_eq_ok (h : as.mapM f = .ok bs) (ha : a ∈ as) : ∃ b ∈ bs, f a = .ok b := by
  obtain ⟨i, hi, rfl⟩ := List.getElem_of_mem ha
  have hi' : i < bs.length := (mapM_eq_ok h).1.symm ▸ hi
  exact ⟨bs[i], List.getElem_mem hi', mapM_getElem h hi hi'⟩

theorem exists_ok_of_toBool (h : x.toBool = true) : ∃ a, x = .ok a := by
  cases x with
  | error e => exact absurd h (by simp [Except.toBool])
  | ok a => exact ⟨a, rfl⟩

theorem toOption_eq_some : x.toOption = some a ↔ x = .ok a := by
  cases x with
  | error e => simp [Except.toOption]
  | ok b => simp [Except.toOption]

theorem ok_of_toOption_map {f : α → β} (h : x.toOption.map f = some b) :
    ∃ a, x = .ok a ∧ f a = b := by
  cases x with
  | error e => exact absurd h (by simp [Except.toOption])
  | ok a => exact ⟨a, rfl, Option.some.inj h⟩

def orElse {α : Type} (x : Option α) (e : Error) : Except Error α :=
  match x with
  | some a => .ok a
  | none => .error e

@[simp] theorem orElse_eq_ok {x : Option α} : orElse x e = .ok a ↔ x = some a := by
  cases x <;> simp [orElse]

/-! ## Machine arithmetic -/

def wrap64 (n : ℕ) : ℕ :=
  n % 2 ^ 64

def saturate64 (n : ℕ) : ℕ :=
  min n (2 ^ 64 - 1)

theorem saturate64_eq_self {n : ℕ} (h : saturate64 n < 2 ^ 64 - 1) : saturate64 n = n := by
  unfold saturate64 at *
  omega

theorem saturate64_of_lt {n : ℕ} (h : n < 2 ^ 64) : saturate64 n = n := by
  unfold saturate64
  omega

theorem mul_add_div_mod (a : ℕ) {b n : ℕ} (h : b < n) :
    (a * n + b) / n = a ∧ (a * n + b) % n = b := by
  rw [Nat.mul_add_mod', Nat.mod_eq_of_lt h, Nat.mul_comm, Nat.mul_add_div (by omega),
    Nat.div_eq_of_lt h]
  exact ⟨rfl, rfl⟩

theorem or_eq_add (a : ℕ) {b n : ℕ} (h : b < 2 ^ n) : a * 2 ^ n ||| b = a * 2 ^ n + b := by
  rw [Nat.mul_comm, Nat.two_pow_add_eq_or_of_lt h]

theorem saturate64_mul (n : ℕ) {k : ℕ} (hk : 0 < k) :
    saturate64 (saturate64 n * k) = saturate64 (n * k) := by
  unfold saturate64
  rcases le_total n (2 ^ 64 - 1) with hle | hge
  · rw [min_eq_left hle]
  · have hmul := Nat.le_mul_of_pos_right n hk
    rw [min_eq_right hge, min_eq_right (Nat.le_mul_of_pos_right _ hk), min_eq_right (by omega)]

def divCeil (n d : ℕ) : ℕ :=
  (n + d - 1) / d

theorem divCeil_pos {n d : ℕ} (hn : 0 < n) (hd : 0 < d) : 0 < divCeil n d :=
  Nat.div_pos (by omega) hd

theorem le_divCeil_mul (n : ℕ) {d : ℕ} (hd : 0 < d) : n ≤ divCeil n d * d := by
  have h := Nat.div_add_mod (n + d - 1) d
  have hlt := Nat.mod_lt (n + d - 1) hd
  rw [divCeil, Nat.mul_comm]
  omega

theorem divCeil_mul_self (n : ℕ) {d : ℕ} (hd : 0 < d) : divCeil (n * d) d = n := by
  have e : n * d + d - 1 = (d - 1) + d * n := by
    rw [Nat.mul_comm d n]
    omega
  rw [divCeil, e, Nat.add_mul_div_left _ _ hd, Nat.div_eq_of_lt (by omega), Nat.zero_add]

/-- As even as it goes, the first ones one longer. -/
def share (n groups : ℕ) : List ℕ :=
  (List.range groups).map fun i => n / groups + if i < n % groups then 1 else 0

-- `bmbt_write::shares`
def shares (n max_ : ℕ) : List ℕ :=
  share n (max (divCeil n max_) 1)

theorem length_shares (n m : ℕ) : (shares n m).length = max (divCeil n m) 1 := by
  simp [shares, share]

/-! ## The device -/

structure Device where
  size : ℕ
  byte : ℕ → UInt8
  size_lt : size < 2 ^ 64 := by decide

namespace Device

def readAt (d : Device) (offset len : ℕ) : Except Error (List UInt8) :=
  if offset + len ≤ d.size then
    .ok ((List.range len).map fun i => d.byte (offset + i))
  else
    .error (.io s!"a read of {len} bytes at {offset} runs past the device")

theorem readAt_length {d : Device} {offset len : ℕ} {bytes : List UInt8}
    (h : d.readAt offset len = .ok bytes) : bytes.length = len ∧ offset + len ≤ d.size := by
  unfold readAt at h
  split at h
  · next hle =>
    injection h with h
    subst h
    simp [hle]
  · cases h

end Device

end FsXfs
