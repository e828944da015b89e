import Airl.Library.Utf8
import Airl.Runtime.Value

/-! # Byte buffers

The operations on bytes of `misc.rs`. Offsets and lengths are `i64` that become `usize`, a
negative one a huge one, and are added before they are compared with the length: a debug build
panics where the sum overflows, a release build goes on with what wraps around.
-/

namespace Airl.Buffers

abbrev Run := Except Fault

inductive Build where
  | debug
  | release
  deriving Repr, DecidableEq

/-- `+` on `usize`. -/
def usizeAdd (build : Build) (a b : UInt64) : Run UInt64 :=
  if a.toNat + b.toNat < 18446744073709551616 then .ok (a + b)
  else match build with
    | .debug => .error .panic
    | .release => .ok (a + b)

/-- `RtData::Int(n) => *n as usize, _ => 0`. -/
def asUsize : RtValue → UInt64
  | .int n => n.toUInt64
  | _ => 0

/-- `RtData::Int(n) => *n as u8, _ => 0`. -/
def asByte : RtValue → UInt8
  | .int n => n.toUInt64.toUInt8
  | _ => 0

/-- `borrow_or_extract`: bytes, or a list of integers. -/
def borrowOrExtract : RtValue → List UInt8
  | .bytes data => data
  | .list items => items.map asByte
  | _ => []

/-- `byte_at`: zero outside. -/
def byteAt (val : RtValue) (off : UInt64) : UInt8 :=
  match val with
  | .bytes data => data.getD off.toNat 0
  | .list items => (items.map asByte).getD off.toNat 0
  | _ => 0

/-- `to_be_bytes` of a number of `width` bytes. -/
def toBeBytes : Nat → Nat → List UInt8
  | 0, _ => []
  | width + 1, n => toBeBytes width (n / 256) ++ [UInt8.ofNat n]

/-- An integer argument, 0 for anything else. -/
def intOr0 : RtValue → Int64
  | .int n => n
  | _ => 0

def airlBytesFromInt8 (n : RtValue) : RtValue := .bytes [asByte n]

def airlBytesFromInt16 (n : RtValue) : RtValue :=
  .bytes (toBeBytes 2 (intOr0 n).toInt16.toUInt16.toNat)

def airlBytesFromInt32 (n : RtValue) : RtValue :=
  .bytes (toBeBytes 4 (intOr0 n).toInt32.toUInt32.toNat)

def airlBytesFromInt64 (n : RtValue) : RtValue := .bytes (toBeBytes 8 (intOr0 n).toUInt64.toNat)

/-- The shifts and `|` of the signed types, on their bits. -/
def airlBytesToInt16 (build : Build) (buf offset : RtValue) : Run RtValue := do
  let off := asUsize offset
  let b₀ := byteAt buf off
  let b₁ := byteAt buf (← usizeAdd build off 1)
  return .int (b₀.toUInt16 <<< 8 ||| b₁.toUInt16).toInt16.toInt64

def airlBytesToInt32 (build : Build) (buf offset : RtValue) : Run RtValue := do
  let off := asUsize offset
  let b₀ := byteAt buf off
  let b₁ := byteAt buf (← usizeAdd build off 1)
  let b₂ := byteAt buf (← usizeAdd build off 2)
  let b₃ := byteAt buf (← usizeAdd build off 3)
  return .int (b₀.toUInt32 <<< 24 ||| b₁.toUInt32 <<< 16 ||| b₂.toUInt32 <<< 8 |||
    b₃.toUInt32).toInt32.toInt64

def airlBytesToInt64 (build : Build) (buf offset : RtValue) : Run RtValue := do
  let off := asUsize offset
  let val ← (List.range 8).foldlM (fun (val : UInt64) i => do
    return val <<< 8 ||| (byteAt buf (← usizeAdd build off (UInt64.ofNat i))).toUInt64) 0
  return .int val.toInt64

/-- `&bytes[start..end]`. -/
def sliceRange (bytes : List UInt8) (start stop : UInt64) : Run (List UInt8) :=
  if start.toNat ≤ stop.toNat ∧ stop.toNat ≤ bytes.length then
    .ok ((bytes.drop start.toNat).take (stop.toNat - start.toNat))
  else .error .panic

/-- `airl_bytes_slice` and `airl_bytes_to_string`: nothing if the sum is past the end, else what
`make` makes of the range. -/
def rangeOf (make : List UInt8 → RtValue) (build : Build) (buf offset len : RtValue) :
    Run RtValue := do
  let off := asUsize offset
  let slen := asUsize len
  let bytes := borrowOrExtract buf
  if (← usizeAdd build off slen).toNat > bytes.length then return make []
  return make (← sliceRange bytes off (← usizeAdd build off slen))

def bytesText (bytes : List UInt8) : RtValue := .str (String.ofList (Utf8.decodeLossy bytes))

def airlBytesToString : Build → RtValue → RtValue → RtValue → Run RtValue := rangeOf bytesText

def airlBytesConcat (a b : RtValue) : RtValue := .bytes (borrowOrExtract a ++ borrowOrExtract b)

def airlBytesSlice : Build → RtValue → RtValue → RtValue → Run RtValue := rangeOf .bytes

/-- A buffer; the runtime's vectors hold fewer than `2 ^ 63` elements. -/
structure Buffer where
  value : RtValue
  bound : (borrowOrExtract value).length < 9223372036854775808

def Buffer.bytes (buf : Buffer) : List UInt8 := borrowOrExtract buf.value

/-- The `len` bytes from `off`, none if the range is not within the buffer. -/
def subrange (bytes : List UInt8) (off len : Int) : List UInt8 :=
  if 0 ≤ off ∧ 0 ≤ len ∧ off + len ≤ bytes.length then (bytes.drop off.toNat).take len.toNat
  else []

/-- The number that the bytes write, most significant first. -/
def readBe (bytes : List UInt8) : Nat := bytes.foldl (fun acc b => acc * 256 + b.toNat) 0

/-- A byte by its address, zero outside. -/
def byteOr0 (bytes : List UInt8) (i : Int) : UInt8 := if 0 ≤ i then bytes.getD i.toNat 0 else 0

/-- The `width` bytes from `off` on. -/
def window (bytes : List UInt8) (off : Int) (width : Nat) : List UInt8 :=
  (List.range width).map fun (i : Nat) => byteOr0 bytes (off + i)

/-- The numbers at an address, as `i16`, `i32` and `i64`. -/
def wordAt16 (bytes : List UInt8) (off : Int) : Int64 :=
  (UInt16.ofNat (readBe (window bytes off 2))).toInt16.toInt64

def wordAt32 (bytes : List UInt8) (off : Int) : Int64 :=
  (UInt32.ofNat (readBe (window bytes off 4))).toInt32.toInt64

def wordAt64 (bytes : List UInt8) (off : Int) : Int64 :=
  (UInt64.ofNat (readBe (window bytes off 8))).toInt64

theorem usizeAdd_cases (build : Build) (a b : UInt64) :
    (a.toNat + b.toNat < 18446744073709551616 ∧ usizeAdd build a b = .ok (a + b) ∧
        (a + b).toNat = a.toNat + b.toNat) ∨
      ¬ a.toNat + b.toNat < 18446744073709551616 ∧ usizeAdd .debug a b = .error .panic := by
  by_cases h : a.toNat + b.toNat < 18446744073709551616
  · refine Or.inl ⟨h, if_pos h, ?_⟩
    rw [UInt64.toNat_add, Nat.mod_eq_of_lt h]
  · exact Or.inr ⟨h, if_neg h⟩

theorem toInt_eq (n : Int64) : n.toInt =
    if 2 * n.toUInt64.toNat < 18446744073709551616 then (n.toUInt64.toNat : Int)
    else n.toUInt64.toNat - 18446744073709551616 := by
  have h := BitVec.toInt_eq_toNat_cond n.toBitVec
  exact h

section Slices

variable {buf : Buffer} {off len : Int64}

theorem subrange_eq (hsum : off.toUInt64.toNat + len.toUInt64.toNat < 18446744073709551616) :
    subrange buf.bytes off.toInt len.toInt =
      if off.toUInt64.toNat + len.toUInt64.toNat ≤ buf.bytes.length then
        (buf.bytes.drop off.toUInt64.toNat).take len.toUInt64.toNat
      else [] := by
  have hbound : buf.bytes.length < 9223372036854775808 := buf.bound
  have hoff := toInt_eq off
  have hlen := toInt_eq len
  have hoffLt := off.toUInt64.toNat_lt
  have hlenLt := len.toUInt64.toNat_lt
  unfold subrange
  by_cases h : off.toUInt64.toNat + len.toUInt64.toNat ≤ buf.bytes.length
  · rw [if_pos (by omega)] at hoff hlen
    rw [if_pos h, if_pos (by omega), hoff, hlen]
    rfl
  · rw [if_neg h, if_neg]
    split at hoff
    · split at hlen
      · omega
      · omega
    · omega

theorem sliceRange_eq (h : off.toUInt64.toNat + len.toUInt64.toNat ≤ buf.bytes.length)
    (hsum : (off.toUInt64 + len.toUInt64).toNat = off.toUInt64.toNat + len.toUInt64.toNat) :
    sliceRange buf.bytes off.toUInt64 (off.toUInt64 + len.toUInt64) =
      .ok ((buf.bytes.drop off.toUInt64.toNat).take len.toUInt64.toNat) := by
  rw [sliceRange, hsum, if_pos ⟨Nat.le_add_right _ _, h⟩, Nat.add_sub_cancel_left]

theorem rangeOf_iff (make : List UInt8 → RtValue) :
    (∀ build, rangeOf make build buf.value (.int off) (.int len) =
        .ok (make (subrange buf.bytes off.toInt len.toInt))) ↔
      off.toUInt64.toNat + len.toUInt64.toNat < 18446744073709551616 := by
  constructor
  · intro h
    rcases usizeAdd_cases .debug off.toUInt64 len.toUInt64 with ⟨hsum, -⟩ | ⟨-, hpanics⟩
    · exact hsum
    · have hdebug := h .debug
      simp only [rangeOf, asUsize, hpanics, bind, Except.bind] at hdebug
      cases hdebug
  · intro hsum build
    rcases usizeAdd_cases build off.toUInt64 len.toUInt64 with ⟨-, hadd, htoNat⟩ | ⟨hover, -⟩
    · rw [subrange_eq hsum]
      simp only [rangeOf, asUsize, hadd, htoNat, bind, Except.bind]
      by_cases h : off.toUInt64.toNat + len.toUInt64.toNat ≤ buf.bytes.length
      · have hrange := sliceRange_eq h htoNat
        rw [Buffer.bytes] at h hrange
        rw [if_neg (Nat.not_lt.mpr h), Buffer.bytes, if_pos h, hrange]
        rfl
      · rw [Buffer.bytes] at h
        rw [if_pos (Nat.lt_of_not_le h), Buffer.bytes, if_neg h]
        rfl
    · exact absurd hsum hover

end Slices

theorem byteAt_eq (val : RtValue) (off : UInt64) :
    byteAt val off = (borrowOrExtract val).getD off.toNat 0 := by
  cases val with
  | bytes data => rfl
  | list items => rfl
  | _ => exact List.getD_nil.symm

theorem readBe_append_singleton (bytes : List UInt8) (b : UInt8) :
    readBe (bytes ++ [b]) = readBe bytes * 256 + b.toNat := by
  rw [readBe, List.foldl_append]
  rfl

/-- One more byte below those read so far, in a word of `m * 256` values. -/
theorem shift_or_mod (m n b : Nat) (hb : b < 256) :
    (n % (m * 256)) <<< 8 % (m * 256) ||| b = (n * 256 + b) % (m * 256) := by
  have hshift : (n % (m * 256)) <<< 8 % (m * 256) = (n % m) <<< 8 := by
    rw [Nat.shiftLeft_eq, Nat.shiftLeft_eq]
    show n % (m * 256) * 256 % (m * 256) = n % m * 256
    rw [Nat.mul_mod_mul_right, Nat.mod_mul_right_mod]
  have hdiv : (n * 256 + b) / 256 = n := by omega
  have hmod : (n * 256 + b) % (m * 256) = n % m * 256 + b := by
    rw [Nat.mul_comm m 256, Nat.mod_mul, hdiv]
    omega
  rw [hshift, hmod, ← Nat.shiftLeft_add_eq_or_of_lt hb, Nat.shiftLeft_eq]

theorem next16 (n : Nat) (b : UInt8) :
    UInt16.ofNat n <<< 8 ||| b.toUInt16 = UInt16.ofNat (n * 256 + b.toNat) := by
  apply UInt16.toNat_inj.mp
  rw [UInt16.toNat_or, UInt16.toNat_shiftLeft, UInt16.toNat_ofNat', UInt8.toNat_toUInt16,
    UInt16.toNat_ofNat']
  exact shift_or_mod 256 n b.toNat b.toNat_lt

theorem next32 (n : Nat) (b : UInt8) :
    UInt32.ofNat n <<< 8 ||| b.toUInt32 = UInt32.ofNat (n * 256 + b.toNat) := by
  apply UInt32.toNat_inj.mp
  rw [UInt32.toNat_or, UInt32.toNat_shiftLeft, UInt32.toNat_ofNat', UInt8.toNat_toUInt32,
    UInt32.toNat_ofNat']
  exact shift_or_mod 16777216 n b.toNat b.toNat_lt

theorem next64 (n : Nat) (b : UInt8) :
    UInt64.ofNat n <<< 8 ||| b.toUInt64 = UInt64.ofNat (n * 256 + b.toNat) := by
  apply UInt64.toNat_inj.mp
  rw [UInt64.toNat_or, UInt64.toNat_shiftLeft, UInt64.toNat_ofNat', UInt8.toNat_toUInt64,
    UInt64.toNat_ofNat']
  exact shift_or_mod 72057594037927936 n b.toNat b.toNat_lt

theorem two_bytes (b₀ b₁ : UInt8) :
    b₀.toUInt16 <<< 8 ||| b₁.toUInt16 = UInt16.ofNat (readBe [b₀, b₁]) := by
  have hfirst : b₀.toUInt16 = UInt16.ofNat b₀.toNat := by
    apply UInt16.toNat_inj.mp
    simp
  have hread : readBe [b₀, b₁] = b₀.toNat * 256 + b₁.toNat := by simp [readBe]
  rw [hfirst, next16, hread]

theorem shiftLeft_sixteen (x : UInt32) : x <<< 16 = x <<< 8 <<< 8 := by
  have h := @UInt32.shiftLeft_add_of_toNat_lt x 8 8 (by decide)
  rwa [show (8 : UInt32) + 8 = 16 by decide] at h

theorem shiftLeft_twentyFour (x : UInt32) : x <<< 24 = x <<< 8 <<< 8 <<< 8 := by
  have h := @UInt32.shiftLeft_add_of_toNat_lt x 16 8 (by decide)
  rwa [show (16 : UInt32) + 8 = 24 by decide, shiftLeft_sixteen] at h

theorem four_bytes (b₀ b₁ b₂ b₃ : UInt8) :
    b₀.toUInt32 <<< 24 ||| b₁.toUInt32 <<< 16 ||| b₂.toUInt32 <<< 8 ||| b₃.toUInt32 =
      UInt32.ofNat (readBe [b₀, b₁, b₂, b₃]) := by
  have hfirst : b₀.toUInt32 = UInt32.ofNat b₀.toNat := by
    apply UInt32.toNat_inj.mp
    simp
  -- the shifts nest, one byte at a time
  have hnested : b₀.toUInt32 <<< 24 ||| b₁.toUInt32 <<< 16 ||| b₂.toUInt32 <<< 8 ||| b₃.toUInt32 =
      ((b₀.toUInt32 <<< 8 ||| b₁.toUInt32) <<< 8 ||| b₂.toUInt32) <<< 8 ||| b₃.toUInt32 := by
    rw [UInt32.shiftLeft_or, UInt32.shiftLeft_or, UInt32.shiftLeft_or, shiftLeft_sixteen,
      shiftLeft_twentyFour]
  have hread : readBe [b₀, b₁, b₂, b₃] =
      ((b₀.toNat * 256 + b₁.toNat) * 256 + b₂.toNat) * 256 + b₃.toNat := by simp [readBe]
  rw [hnested, hfirst, next32, next32, next32, hread]

section Reading

variable {buf : Buffer} {off : Int64}

theorem byteAt_add {i : UInt64} (hsum : off.toUInt64.toNat + i.toNat < 18446744073709551616) :
    byteAt buf.value (off.toUInt64 + i) = byteOr0 buf.bytes (off.toInt + i.toNat) := by
  have hbound : buf.bytes.length < 9223372036854775808 := buf.bound
  have hoff := toInt_eq off
  rw [byteAt_eq, UInt64.toNat_add, Nat.mod_eq_of_lt hsum, byteOr0]
  split at hoff
  · rw [if_pos (by omega), hoff]
    rfl
  · rw [if_neg (by omega)]
    rw [Buffer.bytes] at hbound
    rw [List.getD_eq_getElem?_getD, List.getElem?_eq_none (by omega)]
    rfl

theorem byteAt_zero : byteAt buf.value off.toUInt64 = byteOr0 buf.bytes off.toInt := by
  have h := @byteAt_add buf off 0 (by simpa using off.toUInt64.toNat_lt)
  rw [UInt64.add_zero] at h
  simpa using h

theorem airlBytesToInt16_iff :
    (∀ build, airlBytesToInt16 build buf.value (.int off) =
        .ok (.int (wordAt16 buf.bytes off.toInt))) ↔
      off.toUInt64.toNat + 1 < 18446744073709551616 := by
  constructor
  · intro h
    rcases usizeAdd_cases .debug off.toUInt64 1 with ⟨hsum, -⟩ | ⟨-, hpanics⟩
    · exact hsum
    · have hdebug := h .debug
      simp only [airlBytesToInt16, asUsize, hpanics, bind, Except.bind] at hdebug
      cases hdebug
  · intro hsum build
    have hadd : usizeAdd build off.toUInt64 1 = .ok (off.toUInt64 + 1) := if_pos hsum
    have hbyte := @byteAt_add buf off 1 hsum
    simp only [airlBytesToInt16, asUsize, hadd, bind, Except.bind, byteAt_zero, hbyte, two_bytes]
    simp [wordAt16, window, List.range_succ]
    rfl

theorem airlBytesToInt32_iff :
    (∀ build, airlBytesToInt32 build buf.value (.int off) =
        .ok (.int (wordAt32 buf.bytes off.toInt))) ↔
      off.toUInt64.toNat + 3 < 18446744073709551616 := by
  constructor
  · intro h
    have hdebug := h .debug
    rcases usizeAdd_cases .debug off.toUInt64 1 with ⟨-, hadd₁, -⟩ | ⟨-, hpanics⟩
    · rcases usizeAdd_cases .debug off.toUInt64 2 with ⟨-, hadd₂, -⟩ | ⟨-, hpanics⟩
      · rcases usizeAdd_cases .debug off.toUInt64 3 with ⟨hsum, -⟩ | ⟨-, hpanics⟩
        · exact hsum
        · simp only [airlBytesToInt32, asUsize, hadd₁, hadd₂, hpanics, bind, Except.bind] at hdebug
          cases hdebug
      · simp only [airlBytesToInt32, asUsize, hadd₁, hpanics, bind, Except.bind] at hdebug
        cases hdebug
    · simp only [airlBytesToInt32, asUsize, hpanics, bind, Except.bind] at hdebug
      cases hdebug
  · intro hsum build
    have hadd₁ : usizeAdd build off.toUInt64 1 = .ok (off.toUInt64 + 1) :=
      if_pos (Nat.lt_of_le_of_lt (Nat.add_le_add_left (by decide) _) hsum)
    have hadd₂ : usizeAdd build off.toUInt64 2 = .ok (off.toUInt64 + 2) :=
      if_pos (Nat.lt_of_le_of_lt (Nat.add_le_add_left (by decide) _) hsum)
    have hadd₃ : usizeAdd build off.toUInt64 3 = .ok (off.toUInt64 + 3) := if_pos hsum
    have hbyte₁ := @byteAt_add buf off 1
      (Nat.lt_of_le_of_lt (Nat.add_le_add_left (by decide) _) hsum)
    have hbyte₂ := @byteAt_add buf off 2
      (Nat.lt_of_le_of_lt (Nat.add_le_add_left (by decide) _) hsum)
    have hbyte₃ := @byteAt_add buf off 3 hsum
    simp only [airlBytesToInt32, asUsize, hadd₁, hadd₂, hadd₃, bind, Except.bind, byteAt_zero,
      hbyte₁, hbyte₂, hbyte₃, four_bytes]
    simp [wordAt32, window, List.range_succ]
    rfl

/-- The bytes that the loop of `airl_bytes_to_int64` has read before round `k`. -/
def readLoop (build : Build) (val : RtValue) (off : UInt64) (k : Nat) : Run UInt64 :=
  (List.range k).foldlM (fun (acc : UInt64) i => do
    return acc <<< 8 ||| (byteAt val (← usizeAdd build off (UInt64.ofNat i))).toUInt64) 0

theorem readLoop_succ (build : Build) (val : RtValue) (off : UInt64) (k : Nat) :
    readLoop build val off (k + 1) = (readLoop build val off k).bind fun acc =>
      (usizeAdd build off (UInt64.ofNat k)).bind fun sum =>
        .ok (acc <<< 8 ||| (byteAt val sum).toUInt64) := by
  rw [readLoop, List.range_succ, List.foldlM_append]
  show (readLoop build val off k).bind _ = _
  congr 1
  funext acc
  rw [List.foldlM_cons]
  cases usizeAdd build off (UInt64.ofNat k) with
  | error fault => rfl
  | ok sum => rfl

theorem window_succ (bytes : List UInt8) (i : Int) (k : Nat) :
    window bytes i (k + 1) = window bytes i k ++ [byteOr0 bytes (i + k)] := by
  rw [window, List.range_succ, List.map_append]
  rfl

theorem readLoop_ok {build : Build} {k : Nat} (hk : k ≤ 8)
    (hsum : off.toUInt64.toNat + k ≤ 18446744073709551616) :
    readLoop build buf.value off.toUInt64 k =
      .ok (UInt64.ofNat (readBe (window buf.bytes off.toInt k))) := by
  induction k with
  | zero => rfl
  | succ k ih =>
    have hindex : (UInt64.ofNat k).toNat = k :=
      UInt64.toNat_ofNat_of_lt' (Nat.lt_of_lt_of_le hk (by decide))
    have hlt : off.toUInt64.toNat + (UInt64.ofNat k).toNat < 18446744073709551616 := by omega
    have hadd : usizeAdd build off.toUInt64 (UInt64.ofNat k) =
        .ok (off.toUInt64 + UInt64.ofNat k) := if_pos hlt
    have hbyte := @byteAt_add buf off _ hlt
    rw [hindex] at hbyte
    rw [readLoop_succ, ih (by omega) (by omega), hadd, window_succ, readBe_append_singleton,
      ← next64, ← hbyte]
    rfl

theorem readLoop_debug {k : Nat} (hk : k ≤ 8)
    (hsum : ¬ off.toUInt64.toNat + k ≤ 18446744073709551616) :
    readLoop .debug buf.value off.toUInt64 k = .error .panic := by
  induction k with
  | zero => exact absurd (Nat.le_of_lt off.toUInt64.toNat_lt) hsum
  | succ k ih =>
    rw [readLoop_succ]
    by_cases hprev : off.toUInt64.toNat + k ≤ 18446744073709551616
    · have hindex : (UInt64.ofNat k).toNat = k :=
        UInt64.toNat_ofNat_of_lt' (Nat.lt_of_lt_of_le hk (by decide))
      have hover : usizeAdd .debug off.toUInt64 (UInt64.ofNat k) = .error .panic :=
        if_neg (by omega)
      rw [readLoop_ok (by omega) hprev, hover]
      rfl
    · rw [ih (by omega) hprev]
      rfl

theorem airlBytesToInt64_iff :
    (∀ build, airlBytesToInt64 build buf.value (.int off) =
        .ok (.int (wordAt64 buf.bytes off.toInt))) ↔
      off.toUInt64.toNat + 7 < 18446744073709551616 := by
  have hrun : ∀ build, airlBytesToInt64 build buf.value (.int off) =
      (readLoop build buf.value off.toUInt64 8).map fun val => .int val.toInt64 := by
    intro build
    show (readLoop build buf.value off.toUInt64 8).bind _ = _
    cases readLoop build buf.value off.toUInt64 8 with
    | error fault => rfl
    | ok val => rfl
  constructor
  · intro h
    apply Decidable.byContradiction
    intro hover
    have hdebug := h .debug
    rw [hrun, readLoop_debug (by decide) (by omega)] at hdebug
    cases hdebug
  · intro hsum build
    rw [hrun, readLoop_ok (by decide) hsum]
    rfl

end Reading

/-- How many numbers have `width` bytes. -/
def capacity : Nat → Nat
  | 0 => 1
  | width + 1 => 256 * capacity width

theorem toBeBytes_length (width n : Nat) : (toBeBytes width n).length = width := by
  induction width generalizing n with
  | zero => rfl
  | succ width ih => rw [toBeBytes, List.length_append, ih, List.length_singleton]

theorem readBe_toBeBytes (width n : Nat) : readBe (toBeBytes width n) = n % capacity width := by
  induction width generalizing n with
  | zero => exact (Nat.mod_one n).symm
  | succ width ih =>
    have hlow : (UInt8.ofNat n).toNat = n % 256 := UInt8.toNat_ofNat'
    rw [toBeBytes, readBe_append_singleton, ih, hlow, capacity, Nat.mod_mul, Nat.add_comm,
      Nat.mul_comm]

theorem window_eq {bytes word : List UInt8} {k : Nat}
    (hword : (bytes.drop k).take word.length = word) : window bytes k word.length = word := by
  apply List.ext_getElem?
  intro i
  rw [window, List.getElem?_map]
  by_cases h : i < word.length
  · have hget : bytes[k + i]? = some word[i] := by
      rw [← List.getElem?_drop, ← List.getElem?_take_of_lt h, hword, List.getElem?_eq_getElem h]
    rw [List.getElem?_range h, List.getElem?_eq_getElem h, Option.map_some, byteOr0,
      if_pos (by omega), show ((k : Int) + (i : Int)).toNat = k + i by omega,
      List.getD_eq_getElem?_getD, hget]
    rfl
  · rw [List.getElem?_eq_none (by simpa using h), List.getElem?_eq_none (by simpa using h)]
    rfl

theorem wordAt16_written (n : Int64) {bytes : List UInt8} {k : Nat}
    (hword : (bytes.drop k).take 2 = borrowOrExtract (airlBytesFromInt16 (.int n))) :
    wordAt16 bytes k = n.toInt16.toInt64 := by
  have hwindow := @window_eq bytes (toBeBytes 2 n.toInt16.toUInt16.toNat) k
    (by rw [toBeBytes_length]; exact hword)
  have hfits : n.toInt16.toUInt16.toNat < capacity 2 := n.toInt16.toUInt16.toNat_lt
  rw [toBeBytes_length] at hwindow
  rw [wordAt16, hwindow, readBe_toBeBytes, Nat.mod_eq_of_lt hfits,
    UInt16.ofNat_toNat]
  rfl

theorem wordAt32_written (n : Int64) {bytes : List UInt8} {k : Nat}
    (hword : (bytes.drop k).take 4 = borrowOrExtract (airlBytesFromInt32 (.int n))) :
    wordAt32 bytes k = n.toInt32.toInt64 := by
  have hwindow := @window_eq bytes (toBeBytes 4 n.toInt32.toUInt32.toNat) k
    (by rw [toBeBytes_length]; exact hword)
  have hfits : n.toInt32.toUInt32.toNat < capacity 4 := n.toInt32.toUInt32.toNat_lt
  rw [toBeBytes_length] at hwindow
  rw [wordAt32, hwindow, readBe_toBeBytes, Nat.mod_eq_of_lt hfits,
    UInt32.ofNat_toNat]
  rfl

theorem wordAt64_written (n : Int64) {bytes : List UInt8} {k : Nat}
    (hword : (bytes.drop k).take 8 = borrowOrExtract (airlBytesFromInt64 (.int n))) :
    wordAt64 bytes k = n := by
  have hwindow := @window_eq bytes (toBeBytes 8 n.toUInt64.toNat) k
    (by rw [toBeBytes_length]; exact hword)
  have hfits : n.toUInt64.toNat < capacity 8 := n.toUInt64.toNat_lt
  rw [toBeBytes_length] at hwindow
  rw [wordAt64, hwindow, readBe_toBeBytes, Nat.mod_eq_of_lt hfits,
    UInt64.ofNat_toNat]
  rfl

/-- `a + b` of the addresses stays within `usize`. -/
def Fits (a b : Int) : Prop := 0 ≤ a ∧ 0 ≤ b ∨ (0 ≤ a ∨ 0 ≤ b) ∧ a + b < 0

theorem fits_iff (a b : Int64) :
    a.toUInt64.toNat + b.toUInt64.toNat < 18446744073709551616 ↔ Fits a.toInt b.toInt := by
  have ha := toInt_eq a
  have hb := toInt_eq b
  have haLt := a.toUInt64.toNat_lt
  have hbLt := b.toUInt64.toNat_lt
  unfold Fits
  split at ha
  · split at hb
    · omega
    · omega
  · split at hb
    · omega
    · omega

/-- A number that was written is read back wherever the bytes stand, and a range is returned
exactly; without an overflow in both builds, and only then. -/
theorem byte_buffers_exact_iff (buf : Buffer) (off len : Int64) :
    ((∀ build, airlBytesSlice build buf.value (.int off) (.int len) =
        .ok (.bytes (subrange buf.bytes off.toInt len.toInt))) ↔ Fits off.toInt len.toInt) ∧
    ((∀ build, airlBytesToString build buf.value (.int off) (.int len) =
        .ok (bytesText (subrange buf.bytes off.toInt len.toInt))) ↔ Fits off.toInt len.toInt) ∧
    ((∀ build, airlBytesToInt16 build buf.value (.int off) =
        .ok (.int (wordAt16 buf.bytes off.toInt))) ↔ Fits off.toInt 1) ∧
    ((∀ build, airlBytesToInt32 build buf.value (.int off) =
        .ok (.int (wordAt32 buf.bytes off.toInt))) ↔ Fits off.toInt 3) ∧
    ((∀ build, airlBytesToInt64 build buf.value (.int off) =
        .ok (.int (wordAt64 buf.bytes off.toInt))) ↔ Fits off.toInt 7) ∧
    (0 ≤ off.toInt → ∀ n : Int64,
      ((buf.bytes.drop off.toInt.toNat).take 2 = borrowOrExtract (airlBytesFromInt16 (.int n)) →
        ∀ build, airlBytesToInt16 build buf.value (.int off) = .ok (.int n.toInt16.toInt64)) ∧
      ((buf.bytes.drop off.toInt.toNat).take 4 = borrowOrExtract (airlBytesFromInt32 (.int n)) →
        ∀ build, airlBytesToInt32 build buf.value (.int off) = .ok (.int n.toInt32.toInt64)) ∧
      ((buf.bytes.drop off.toInt.toNat).take 8 = borrowOrExtract (airlBytesFromInt64 (.int n)) →
        ∀ build, airlBytesToInt64 build buf.value (.int off) = .ok (.int n))) := by
  have h16 := (@airlBytesToInt16_iff buf off).trans (fits_iff off 1)
  have h32 := (@airlBytesToInt32_iff buf off).trans (fits_iff off 3)
  have h64 := (@airlBytesToInt64_iff buf off).trans (fits_iff off 7)
  refine ⟨(rangeOf_iff .bytes).trans (fits_iff off len),
    (rangeOf_iff bytesText).trans (fits_iff off len), h16, h32, h64, ?_⟩
  intro hoff n
  have haddress : off.toInt = (off.toInt.toNat : Int) := (Int.toNat_of_nonneg hoff).symm
  refine ⟨?_, ?_, ?_⟩
  · intro hword build
    rw [h16.mpr (Or.inl ⟨hoff, by decide⟩) build, haddress, wordAt16_written n hword]
  · intro hword build
    rw [h32.mpr (Or.inl ⟨hoff, by decide⟩) build, haddress, wordAt32_written n hword]
  · intro hword build
    rw [h64.mpr (Or.inl ⟨hoff, by decide⟩) build, haddress, wordAt64_written n hword]

/-- -2 in two bytes, behind another byte. -/
def minusTwo : Buffer where
  value := airlBytesConcat (airlBytesFromInt8 (.int 9)) (airlBytesFromInt16 (.int (-2)))
  bound := by decide

theorem byte_buffers_exact_iff_minusTwo :
    airlBytesToInt16 .debug minusTwo.value (.int 1) = .ok (.int (-2)) ∧
      airlBytesToInt16 .release minusTwo.value (.int 1) = .ok (.int (-2)) := by
  have hread := (byte_buffers_exact_iff minusTwo 1 2).2.2.2.2.2 (by decide) (-2)
  exact ⟨hread.1 rfl .debug, hread.1 rfl .release⟩

/-- One byte, and a length of -1 from behind it: a panic in either build. -/
theorem bytes_slice_panics :
    airlBytesSlice .debug (airlBytesFromInt8 (.int 7)) (.int 1) (.int (-1)) = .error .panic ∧
      airlBytesSlice .release (airlBytesFromInt8 (.int 7)) (.int 1) (.int (-1)) =
        .error .panic :=
  ⟨rfl, rfl⟩

end Airl.Buffers
