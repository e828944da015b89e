import Airl.Json.Returns
import Airl.Runtime.ByteBuffers
import Airl.Stdlib.Base64
import Airl.Stdlib.Math

/-! # Key derivation in the standard library

`pbkdf2.airl` and `be32-to-list` of `sha256.airl`, beside the function of RFC 2898. The builtin
`hmac-sha256-bytes` is a parameter. Every call takes a frame of the call stack except the tail call
of `pbkdf2-f-loop`; a `(valid result)` of a list or of bytes cannot fail and is left out.
-/

namespace Airl.Stdlib

open Airl.Json (Bytes Host bytesFromInt8 enter_returns assert_returns overflow_returns vmHost)
open Airl.Buffers (Build Buffer airlBytesSlice toBeBytes toBeBytes_length)

namespace Pbkdf2

section Specification

variable (prf : Bytes → Bytes → Bytes) (hLen : Nat)

/-- The exclusive or, byte by byte. -/
def xorBytes (a b : Bytes) : Bytes := List.zipWith (· ^^^ ·) a b

/-- `U_{j+1}`: the first is the value at `first`, each further one that at the one before it. -/
def chained (password first : Bytes) : Nat → Bytes
  | 0 => prf password first
  | j + 1 => prf password (chained password first j)

/-- The exclusive or of `U_1` to `U_c`. -/
def xorOfChain (password first : Bytes) (c : Nat) : Bytes :=
  ((List.range c).map (chained prf password first)).foldl xorBytes (List.replicate hLen 0)

/-- `T_i`, where `INT(i)` is the number in four bytes, the most significant first. -/
def block (password salt : Bytes) (c i : Nat) : Bytes :=
  xorOfChain prf hLen password (salt ++ toBeBytes 4 i) c

/-- The number of blocks, `CEIL(dkLen / hLen)`. -/
def blockCount (dkLen : Nat) : Nat := (dkLen + hLen - 1) / hLen

/-- The first `dkLen` bytes of `T_1 || T_2 || ...`. -/
def derivedKey (password salt : Bytes) (c dkLen : Nat) : Bytes :=
  ((List.range (blockCount hLen dkLen)).flatMap fun i =>
    block prf hLen password salt c (i + 1)).take
    dkLen

end Specification

section Functions

/-- `airl_bytes_xor`. -/
def bytesXor (a b : Bytes) : Except Fault Bytes :=
  if a.length ≠ b.length then .error .exit else .ok (xorBytes a b)

/-- `airl_length` of bytes. -/
def airlLength : RtValue → Except Fault Int64
  | .bytes data => .ok (Int64.ofNat data.length)
  | _ => .error .exit

variable (H : Host) (hmac : Bytes → Bytes → Bytes)

def be32ToList (frames : Nat) (w : Int64) : Except Fault (List Bytes) :=
  H.enter frames fun _ => do
    H.requires "be32-to-list" "(>= w 0)" (w ≥ 0)
    return [bytesFromInt8 (w / 16777216 % 256), bytesFromInt8 (w / 65536 % 256),
      bytesFromInt8 (w / 256 % 256), bytesFromInt8 (w % 256)]

def pbkdf2XorBytes (frames : Nat) (a b : Bytes) : Except Fault Bytes :=
  H.enter frames fun _ => do
    H.requires "pbkdf2-xor-bytes" "(= (length a) (length b))" (a.length = b.length)
    let result ← bytesXor a b
    H.ensures "pbkdf2-xor-bytes" "(= (length result) (length a))" (result.length = a.length)
    return result

theorem toNat_pred {iter : Int64} (h : iter ≠ 0) :
    (iter - 1).toUInt64.toNat < iter.toUInt64.toNat := by
  have hpos : iter.toUInt64.toNat ≠ 0 := by
    intro hzero
    have hbits : iter.toUInt64 = 0 := UInt64.toNat_inj.mp hzero
    exact h (congrArg UInt64.toInt64 hbits)
  have hsub : (iter - 1).toUInt64 = iter.toUInt64 - 1 := rfl
  have hone : (1 : UInt64) ≤ iter.toUInt64 := by
    rw [UInt64.le_iff_toNat_le]
    exact Nat.one_le_iff_ne_zero.mpr hpos
  rw [hsub, UInt64.toNat_sub_of_le _ _ hone]
  exact Nat.sub_lt (Nat.pos_of_ne_zero hpos) Nat.one_pos

/-- `frames` is what is left inside the function. -/
def pbkdf2FLoop (frames : Nat) (key uPrev acc : Bytes) (iter : Int64) : Except Fault Bytes := do
  H.requires "pbkdf2-f-loop" "(>= iter 0)" (iter ≥ 0)
  if h : iter = 0 then return acc
  else
    let uNext := hmac key uPrev
    let newAcc ← pbkdf2XorBytes H frames acc uNext
    pbkdf2FLoop frames key uNext newAcc (iter - 1)
termination_by iter.toUInt64.toNat
decreasing_by exact toNat_pred h

def pbkdf2F (frames : Nat) (key salt : Bytes) (iterations blockIdx : Int64) :
    Except Fault Bytes :=
  H.enter frames fun frames => do
    H.requires "pbkdf2-f" "(>= iterations 1)" (iterations ≥ 1)
    H.requires "pbkdf2-f" "(>= block-idx 1)" (blockIdx ≥ 1)
    let intBytes ← be32ToList H frames blockIdx
    let u1 := hmac key (bytesConcatAll (salt :: intBytes))
    H.enter frames fun frames => pbkdf2FLoop H hmac frames key u1 u1 (iterations - 1)

def pbkdf2Blocks (key salt : Bytes) (iterations : Int64) :
    Nat → Int64 → Int64 → Except Fault (List Bytes)
  | 0, _, _ => H.overflow
  | frames + 1, blockIdx, blocksNeeded => do
    H.requires "pbkdf2-blocks" "(>= block-idx 1)" (blockIdx ≥ 1)
    if blockIdx > blocksNeeded then return []
    else
      let first ← pbkdf2F H hmac frames key salt iterations blockIdx
      return first :: (← pbkdf2Blocks key salt iterations frames (blockIdx + 1) blocksNeeded)

def pbkdf2Sha256Bytes (build : Build) (frames : Nat) (password salt : Bytes)
    (iterations dkLen : Int64) : Except Fault RtValue :=
  H.enter frames fun frames => do
    H.requires "pbkdf2-sha256-bytes" "(>= iterations 1)" (iterations ≥ 1)
    H.requires "pbkdf2-sha256-bytes" "(>= dk-len 1)" (dkLen ≥ 1)
    let blocksNeeded := dkLen / 32 + (if dkLen % 32 = 0 then 0 else 1)
    let blocks ← pbkdf2Blocks H hmac password salt iterations frames 1 blocksNeeded
    let result ← airlBytesSlice build (.bytes (bytesConcatAll blocks)) (.int 0) (.int dkLen)
    H.ensures "pbkdf2-sha256-bytes" "(= (length result) dk-len)" ((← airlLength result) = dkLen)
    return result

end Functions

section Encoding

theorem xorBytes_length {a b : Bytes} (h : a.length = b.length) :
    (xorBytes a b).length = a.length := by
  rw [xorBytes, List.length_zipWith, ← h, Nat.min_self]

theorem xorBytes_zero (b : Bytes) : xorBytes (List.replicate b.length 0) b = b := by
  induction b with
  | nil => rfl
  | cons x xs ih =>
    rw [List.length_cons, List.replicate_succ]
    show (0 ^^^ x) :: xorBytes (List.replicate xs.length 0) xs = x :: xs
    rw [ih, UInt8.zero_xor]

theorem toNat_of_toInt {x : Int64} {m : Nat} (h : x.toInt = m) : x.toUInt64.toNat = m := by
  have hcases := Airl.Buffers.toInt_eq x
  have hlt := x.toUInt64.toNat_lt
  split at hcases
  · omega
  · omega

theorem bytesFromInt8_eq {x : Int64} {m : Nat} (h : x.toInt = m) :
    bytesFromInt8 x = [UInt8.ofNat m] := by
  have hbyte : x.toUInt64.toUInt8 = UInt8.ofNat x.toUInt64.toNat := by
    apply UInt8.toNat_inj.mp
    simp
  rw [bytesFromInt8, hbyte, toNat_of_toInt h]

theorem toInt_div_mod {w : Int64} {n : Nat} (hw : w.toInt = n) {d : Int64} {k : Nat}
    (hd : d.toInt = k) (hpos : 0 < k) : (w / d % 256).toInt = (n / k % 256 : Nat) := by
  have hne : d ≠ -1 := by
    rintro rfl
    have hminus : Int64.toInt (-1) = -1 := rfl
    omega
  have hbase : Int64.toInt 256 = 256 := rfl
  rw [Int64.toInt_mod, Int64.toInt_div_of_ne_right _ _ hne, hw, hd, hbase,
    Int.tdiv_eq_ediv_of_nonneg (Int.natCast_nonneg n), ← Int.natCast_ediv,
    Int.tmod_eq_emod_of_nonneg (Int.natCast_nonneg _)]
  rfl

theorem ofNat_mod_256 (n : Nat) : UInt8.ofNat (n % 256) = UInt8.ofNat n := by
  apply UInt8.toNat_inj.mp
  simp

variable {H : Host} {frames : Nat}

theorem requires_returns (function clause : String) {holds : Bool} (h : holds = true) :
    Returns (H.requires function clause holds) True () :=
  (assert_returns _ _ _ _).congr (by simp [h])

theorem ensures_returns (function clause : String) {holds : Bool} (h : holds = true) :
    Returns (H.ensures function clause holds) True () :=
  (assert_returns _ _ _ _).congr (by simp [h])

theorem be32ToList_returns {w : Int64} {n : Nat} (hw : w.toInt = n) :
    ∃ parts, Returns (be32ToList H frames w) (1 ≤ frames) parts ∧
      bytesConcatAll parts = toBeBytes 4 n := by
  have hclause : decide (w ≥ 0) = true := by
    rw [decide_eq_true_iff, ge_zero_iff, hw]
    exact Int.natCast_nonneg n
  have hreturns : Returns (be32ToList H frames w) (1 ≤ frames) [bytesFromInt8 (w / 16777216 % 256),
      bytesFromInt8 (w / 65536 % 256), bytesFromInt8 (w / 256 % 256), bytesFromInt8 (w % 256)] :=
    enter_returns fun _ => (requires_returns _ _ hclause).seq (Returns.pure _) (by simp)
  refine ⟨_, hreturns, ?_⟩
  have h₃ := bytesFromInt8_eq (@toInt_div_mod w n hw 16777216 16777216 rfl (by decide))
  have h₂ := bytesFromInt8_eq (@toInt_div_mod w n hw 65536 65536 rfl (by decide))
  have h₁ := bytesFromInt8_eq (@toInt_div_mod w n hw 256 256 rfl (by decide))
  have h₀ : bytesFromInt8 (w % 256) = [UInt8.ofNat (n % 256)] := by
    apply bytesFromInt8_eq
    rw [Int64.toInt_mod, hw]
    exact Int.tmod_eq_emod_of_nonneg (Int.natCast_nonneg n)
  rw [h₃, h₂, h₁, h₀]
  simp only [ofNat_mod_256, toBeBytes, Nat.div_div_eq_div_mul]
  rfl

end Encoding

section Derivation

variable {H : Host} {hmac : Bytes → Bytes → Bytes} {frames : Nat}

theorem chained_length (hlen : ∀ key data, (hmac key data).length = 32) (key first : Bytes)
    (j : Nat) : (chained hmac key first j).length = 32 := by
  cases j with
  | zero => exact hlen _ _
  | succ j => exact hlen _ _

theorem pbkdf2XorBytes_returns {a b : Bytes} (h : a.length = b.length) :
    Returns (pbkdf2XorBytes H frames a b) (1 ≤ frames) (xorBytes a b) := by
  refine enter_returns fun _ => ?_
  have hxor : Returns (bytesXor a b) True (xorBytes a b) := by
    rw [bytesXor, if_neg (not_not_intro h)]
    exact Returns.ok _
  have hlength : decide ((xorBytes a b).length = a.length) = true :=
    decide_eq_true (xorBytes_length h)
  apply (requires_returns _ _ (decide_eq_true h)).seq
  · exact hxor.bind ((ensures_returns _ _ hlength).bind (Returns.pure _))
  · simp

theorem toInt_pred {iter : Int64} {n : Nat} (h : iter.toInt = (n + 1 : Nat)) :
    (iter - 1).toInt = n := by
  have hlt := iter.toInt_lt
  have hone : Int64.toInt 1 = 1 := rfl
  rw [Int64.toInt_sub, hone, h, Int.bmod_eq_of_le (by omega) (by omega)]
  omega

/-- After `n` further rounds the accumulator holds `n` further values of the chain. -/
theorem pbkdf2FLoop_returns (hlen : ∀ key data, (hmac key data).length = 32) (key first : Bytes)
    {n j : Nat} {acc : Bytes} (hacc : acc.length = 32) {iter : Int64} (hiter : iter.toInt = n) :
    Returns (pbkdf2FLoop H hmac frames key (chained hmac key first j) acc iter)
      (n = 0 ∨ 1 ≤ frames)
      (((List.range n).map fun i => chained hmac key first (j + 1 + i)).foldl xorBytes acc) := by
  induction n generalizing j acc iter with
  | zero =>
    have hzero : iter = 0 := eq_zero_iff.mpr hiter
    subst hzero
    rw [pbkdf2FLoop, dif_pos rfl]
    exact (requires_returns _ _ rfl).seq (Returns.pure _) (by simp)
  | succ n ih =>
    have hne : iter ≠ 0 := by
      intro hzero
      rw [eq_zero_iff, hiter] at hzero
      omega
    have hclause : decide (iter ≥ 0) = true := by
      rw [decide_eq_true_iff, ge_zero_iff, hiter]
      exact Int.natCast_nonneg _
    have hsame : acc.length = (chained hmac key first (j + 1)).length := by
      rw [hacc, chained_length hlen]
    have hxor : (xorBytes acc (chained hmac key first (j + 1))).length = 32 := by
      rw [xorBytes_length hsame, hacc]
    have hrest := @ih (j + 1) _ hxor _ (toInt_pred hiter)
    rw [pbkdf2FLoop, dif_neg hne, List.range_succ_eq_map, List.map_cons, List.foldl_cons,
      List.map_map]
    apply (requires_returns _ _ hclause).seq
    · apply (pbkdf2XorBytes_returns hsame).bind
      have hshift : ((fun i => chained hmac key first (j + 1 + i)) ∘ Nat.succ) =
          fun i => chained hmac key first (j + 1 + 1 + i) := by
        funext i
        rw [Function.comp_apply, Nat.succ_eq_add_one]
        congr 1
        omega
      rw [hshift]
      exact hrest
    · simp only [Nat.succ_ne_zero, false_or, true_and]
      omega

/-- The frames that `pbkdf2-f` takes. -/
def blockFrames (c : Nat) : Nat := if c = 1 then 2 else 3

theorem pbkdf2F_returns (hlen : ∀ key data, (hmac key data).length = 32) (key salt : Bytes)
    {iterations blockIdx : Int64} {c i : Nat} (hc : iterations.toInt = (c + 1 : Nat))
    (hi : blockIdx.toInt = i) (hpos : 1 ≤ i) :
    Returns (pbkdf2F H hmac frames key salt iterations blockIdx) (blockFrames (c + 1) ≤ frames)
      (block hmac 32 key salt (c + 1) i) := by
  have hone : Int64.toInt 1 = 1 := rfl
  have hiterations : decide (iterations ≥ 1) = true := by
    rw [decide_eq_true_iff, ge_iff_le, Int64.le_iff_toInt_le, hc, hone]
    omega
  have hblockIdx : decide (blockIdx ≥ 1) = true := by
    rw [decide_eq_true_iff, ge_iff_le, Int64.le_iff_toInt_le, hi, hone]
    omega
  have hneed : blockFrames (c + 1) = (if c = 0 then 1 else 2) + 1 := by
    rw [blockFrames]
    split
    · rw [if_pos (by omega)]
    · rw [if_neg (by omega)]
  rw [hneed]
  refine enter_returns fun frames => ?_
  obtain ⟨parts, hparts, hint⟩ := @be32ToList_returns H frames blockIdx i hi
  -- the first value of the chain is also where the exclusive or starts
  generalize hfirst : salt ++ toBeBytes 4 i = first
  have hsalt : hmac key (bytesConcatAll (salt :: parts)) = chained hmac key first 0 := by
    rw [bytesConcatAll, List.flatten_cons, ← bytesConcatAll, hint, hfirst]
    rfl
  have hloop : Returns (H.enter frames fun frames => pbkdf2FLoop H hmac frames key
      (chained hmac key first 0) (chained hmac key first 0) (iterations - 1))
      ((if c = 0 then 0 else 1) + 1 ≤ frames) (block hmac 32 key salt (c + 1) i) := by
    refine enter_returns fun frames => ?_
    have hrun := @pbkdf2FLoop_returns H hmac frames hlen key first c 0 _
      (chained_length hlen key first 0) _ (toInt_pred hc)
    have hblock : block hmac 32 key salt (c + 1) i =
        ((List.range c).map fun i => chained hmac key first (0 + 1 + i)).foldl xorBytes
          (chained hmac key first 0) := by
      have hzero := xorBytes_zero (chained hmac key first 0)
      rw [chained_length hlen] at hzero
      rw [block, xorOfChain, hfirst, List.range_succ_eq_map, List.map_cons, List.foldl_cons, hzero,
        List.map_map]
      congr 2
      funext i
      rw [Function.comp_apply, Nat.succ_eq_add_one]
      congr 1
      omega
    rw [hblock]
    refine hrun.congr ?_
    split
    · simp [*]
    · simp [*]
  apply (requires_returns _ _ hiterations).seq
  · apply (requires_returns _ _ hblockIdx).bind
    apply hparts.bind
    rw [hsalt]
    exact hloop
  · simp only [true_and]
    split
    · omega
    · omega

theorem toInt_succ_of_lt {x : Int64} {n : Nat} (hx : x.toInt = n) (hn : n < 4294967296) :
    (x + 1).toInt = (n + 1 : Nat) := by
  have hone : Int64.toInt 1 = 1 := rfl
  rw [Int64.toInt_add, hone, hx, Int.bmod_eq_of_le (by omega) (by omega)]
  rfl

/-- The frames for `r` blocks: each but the last is held while the next ones are computed. -/
def blocksFrames (c : Nat) : Nat → Nat
  | 0 => 1
  | r + 1 => max (blockFrames c) (blocksFrames c r) + 1

theorem blocksFrames_pos (c r : Nat) (hr : 0 < r) : blocksFrames c r = r + blockFrames c := by
  have htwo : 2 ≤ blockFrames c := by
    rw [blockFrames]
    split
    · omega
    · omega
  induction r with
  | zero => exact absurd hr (Nat.lt_irrefl 0)
  | succ r ih =>
    rw [blocksFrames]
    cases r with
    | zero => rw [blocksFrames]; omega
    | succ r => rw [ih (Nat.succ_pos r)]; omega

theorem pbkdf2Blocks_returns (hlen : ∀ key data, (hmac key data).length = 32) (key salt : Bytes)
    {iterations blockIdx blocksNeeded : Int64} {c i r : Nat}
    (hc : iterations.toInt = (c + 1 : Nat)) (hi : blockIdx.toInt = i) (hpos : 1 ≤ i)
    (hneeded : blocksNeeded.toInt + 1 = (i + r : Nat)) (hmax : i + r ≤ 4294967296) :
    Returns (pbkdf2Blocks H hmac key salt iterations frames blockIdx blocksNeeded)
      (blocksFrames (c + 1) r ≤ frames)
      ((List.range r).map fun k => block hmac 32 key salt (c + 1) (i + k)) := by
  induction frames generalizing blockIdx i r with
  | zero =>
    cases r with
    | zero => exact overflow_returns 0 _
    | succ r => exact overflow_returns _ _
  | succ frames ih =>
    have hone : Int64.toInt 1 = 1 := rfl
    have hclause : decide (blockIdx ≥ 1) = true := by
      rw [decide_eq_true_iff, ge_iff_le, Int64.le_iff_toInt_le, hi, hone]
      omega
    rw [pbkdf2Blocks]
    cases r with
    | zero =>
      have hpast : blockIdx > blocksNeeded := by
        rw [gt_iff_lt, Int64.lt_iff_toInt_lt]
        omega
      rw [if_pos hpast, List.range_zero, List.map_nil]
      exact (requires_returns _ _ hclause).seq (Returns.pure _) (by simp [blocksFrames])
    | succ r =>
      have hwithin : ¬ blockIdx > blocksNeeded := by
        rw [gt_iff_lt, Int64.lt_iff_toInt_lt]
        omega
      have hrest := @ih _ (i + 1) r (toInt_succ_of_lt hi (by omega)) (by omega)
        (by omega) (by omega)
      have hblocks : ((List.range (r + 1)).map fun k => block hmac 32 key salt (c + 1) (i + k)) =
          block hmac 32 key salt (c + 1) i ::
            (List.range r).map fun k => block hmac 32 key salt (c + 1) (i + 1 + k) := by
        rw [List.range_succ_eq_map, List.map_cons, List.map_map, Nat.add_zero]
        congr 2
        funext k
        rw [Function.comp_apply, Nat.succ_eq_add_one, Nat.add_assoc, Nat.add_comm 1 k]
      rw [if_neg hwithin, hblocks]
      apply (requires_returns _ _ hclause).seq
      · exact (pbkdf2F_returns hlen key salt hc hi hpos).bind (hrest.map _)
      · rw [blocksFrames, true_and]
        omega

theorem block_length (hlen : ∀ key data, (hmac key data).length = 32) (key salt : Bytes)
    (c i : Nat) : (block hmac 32 key salt c i).length = 32 := by
  rw [block, xorOfChain]
  generalize salt ++ toBeBytes 4 i = first
  induction c with
  | zero => rfl
  | succ c ih =>
    rw [List.range_succ, List.map_append, List.foldl_append, List.map_singleton, List.foldl_cons,
      List.foldl_nil, xorBytes_length, ih]
    rw [ih, chained_length hlen]

theorem blocks_length (hlen : ∀ key data, (hmac key data).length = 32) (key salt : Bytes)
    (c r : Nat) :
    ((List.range r).flatMap fun k => block hmac 32 key salt c (k + 1)).length = 32 * r := by
  induction r with
  | zero => rfl
  | succ r ih =>
    rw [List.range_succ, List.flatMap_append, List.length_append, ih, List.flatMap_singleton,
      block_length hlen, Nat.mul_succ]

theorem le_blocks {dkLen : Nat} : dkLen ≤ 32 * blockCount 32 dkLen := by
  rw [blockCount]
  omega

theorem derivedKey_length (hlen : ∀ key data, (hmac key data).length = 32) (key salt : Bytes)
    (c dkLen : Nat) : (derivedKey hmac 32 key salt c dkLen).length = dkLen := by
  rw [derivedKey, List.length_take, blocks_length hlen]
  exact Nat.min_eq_left le_blocks

theorem blocksNeeded_toInt {dkLen : Int64} {n : Nat} (hn : dkLen.toInt = n) :
    (dkLen / 32 + (if dkLen % 32 = 0 then 0 else 1)).toInt = blockCount 32 n := by
  have hbase : Int64.toInt 32 = 32 := rfl
  have hzero : Int64.toInt 0 = 0 := rfl
  have hone : Int64.toInt 1 = 1 := rfl
  have hlt := dkLen.toInt_lt
  have hquot : (dkLen / 32).toInt = (n / 32 : Nat) := by
    rw [Int64.toInt_div_of_ne_right _ _ (by decide), hn, hbase,
      Int.tdiv_eq_ediv_of_nonneg (Int.natCast_nonneg n)]
    rfl
  have hrem : (dkLen % 32).toInt = (n % 32 : Nat) := by
    rw [Int64.toInt_mod, hn, hbase, Int.tmod_eq_emod_of_nonneg (Int.natCast_nonneg n)]
    rfl
  rw [Int64.toInt_add, hquot, blockCount]
  split
  · next hdvd =>
    rw [eq_zero_iff, hrem] at hdvd
    rw [hzero, Int.bmod_eq_of_le (by omega) (by omega)]
    omega
  · next hdvd =>
    rw [eq_zero_iff, hrem] at hdvd
    rw [hone, Int.bmod_eq_of_le (by omega) (by omega)]
    omega

theorem airlBytesSlice_front (build : Build) {data : Bytes} {dkLen : Int64} {n : Nat}
    (hn : dkLen.toInt = n) (hfits : n ≤ data.length)
    (hbound : data.length < 9223372036854775808) :
    airlBytesSlice build (.bytes data) (.int 0) (.int dkLen) = .ok (.bytes (data.take n)) := by
  have hzero : (0 : Int64).toUInt64.toNat = 0 := rfl
  have hlt := dkLen.toUInt64.toNat_lt
  have hslice := (@Airl.Buffers.rangeOf_iff ⟨.bytes data, hbound⟩ 0 dkLen .bytes).mpr
    (by omega) build
  have hrange : Airl.Buffers.subrange data 0 dkLen.toInt = data.take n := by
    rw [Airl.Buffers.subrange, if_pos (by omega), hn]
    rfl
  rw [← hrange]
  exact hslice

/-- The frames for a key of `dkLen` bytes. -/
def keyFrames (c dkLen : Nat) : Nat := blockCount 32 dkLen + blockFrames c + 1

theorem pbkdf2Sha256Bytes_returns (hlen : ∀ key data, (hmac key data).length = 32) (build : Build)
    (password salt : Bytes) {iterations dkLen : Int64} {c n : Nat}
    (hc : iterations.toInt = (c + 1 : Nat)) (hn : dkLen.toInt = n) (hpos : 1 ≤ n)
    (hmax : n ≤ 137438953440) :
    Returns (pbkdf2Sha256Bytes H hmac build frames password salt iterations dkLen)
      (keyFrames (c + 1) n ≤ frames) (.bytes (derivedKey hmac 32 password salt (c + 1) n)) := by
  have hone : Int64.toInt 1 = 1 := rfl
  have hclause₁ : decide (iterations ≥ 1) = true := by
    rw [decide_eq_true_iff, ge_iff_le, Int64.le_iff_toInt_le, hc, hone]
    omega
  have hclause₂ : decide (dkLen ≥ 1) = true := by
    rw [decide_eq_true_iff, ge_iff_le, Int64.le_iff_toInt_le, hn, hone]
    omega
  have hcount : 0 < blockCount 32 n := by
    rw [blockCount]
    omega
  have hcountLe : blockCount 32 n ≤ 4294967295 := by
    rw [blockCount]
    omega
  rw [keyFrames]
  refine enter_returns fun frames => ?_
  have hblocks :=
    @pbkdf2Blocks_returns H hmac frames hlen password salt iterations 1 _ c 1 _ hc hone
    (Nat.le_refl 1) (by rw [blocksNeeded_toInt hn, Nat.add_comm]; rfl) (by omega)
  have hkey : bytesConcatAll ((List.range (blockCount 32 n)).map fun k =>
      block hmac 32 password salt (c + 1) (1 + k)) =
      (List.range (blockCount 32 n)).flatMap fun k =>
        block hmac 32 password salt (c + 1) (k + 1) := by
    rw [bytesConcatAll, List.flatMap_def]
    congr 2
    funext k
    rw [Nat.add_comm 1 k]
  have hlength := blocks_length hlen password salt (c + 1) (blockCount 32 n)
  have hfits : n ≤ 32 * blockCount 32 n := le_blocks
  rw [blocksFrames_pos _ _ hcount] at hblocks
  apply (requires_returns _ _ hclause₁).seq
  · apply (requires_returns _ _ hclause₂).bind
    apply hblocks.bind
    rw [hkey, airlBytesSlice_front build hn (by omega) (by omega)]
    have hresult :
        decide (Int64.ofNat (derivedKey hmac 32 password salt (c + 1) n).length = dkLen) =
        true := by
      rw [decide_eq_true_iff, derivedKey_length hlen]
      apply Int64.toInt_inj.mp
      rw [Int64.toInt_ofNat_of_lt (by omega), hn]
    exact (Returns.ok _).bind ((Returns.ok _).bind ((ensures_returns _ _ hresult).bind
      (Returns.pure _)))
  · simp

/-- The code returns the key of the standard, of the length asked for, exactly where the call
stack has room for one call for every block and three more, or four if the chain goes on behind
its first value. -/
theorem pbkdf2_returns_iff (H : Host) (hmac : Bytes → Bytes → Bytes)
    (hlen : ∀ key data, (hmac key data).length = 32) (build : Build) (frames : Nat)
    (password salt : Bytes) {iterations dkLen : Int64} (hiterations : 1 ≤ iterations)
    (hdkLen : 1 ≤ dkLen) (hmax : dkLen ≤ 32 * (4294967296 - 1)) :
    Returns (pbkdf2Sha256Bytes H hmac build frames password salt iterations dkLen)
        (keyFrames iterations.toInt.toNat dkLen.toInt.toNat ≤ frames)
        (.bytes (derivedKey hmac 32 password salt iterations.toInt.toNat dkLen.toInt.toNat)) ∧
      (derivedKey hmac 32 password salt iterations.toInt.toNat dkLen.toInt.toNat).length =
        dkLen.toInt.toNat := by
  refine ⟨?_, derivedKey_length hlen _ _ _ _⟩
  rw [Int64.le_iff_toInt_le] at hiterations hdkLen hmax
  have hone : Int64.toInt 1 = 1 := rfl
  have hlargest : Int64.toInt (32 * (4294967296 - 1)) = 137438953440 := rfl
  obtain ⟨c, hc⟩ : ∃ c : Nat, iterations.toInt = (c + 1 : Nat) :=
    ⟨iterations.toInt.toNat - 1, by omega⟩
  obtain ⟨n, hn⟩ : ∃ n : Nat, dkLen.toInt = n := ⟨dkLen.toInt.toNat, by omega⟩
  have hcNat : iterations.toInt.toNat = c + 1 := by omega
  have hnNat : dkLen.toInt.toNat = n := by omega
  rw [hcNat, hnNat]
  exact pbkdf2Sha256Bytes_returns hlen build password salt hc hn (by omega) (by omega)

/-- `password` and `salt`. -/
def vectorPassword : Bytes := [112, 97, 115, 115, 119, 111, 114, 100]

def vectorSalt : Bytes := [115, 97, 108, 116]

/-- HMAC-SHA-256 of the first block of the salt under the password, and of that value. -/
def vectorHmac (key data : Bytes) : Bytes :=
  let first :=
    [18, 15, 182, 207, 252, 248, 179, 44, 67, 231, 34, 82, 86, 196, 248, 55, 168, 101, 72,
    201, 44, 204, 53, 72, 8, 5, 152, 124, 183, 11, 225, 123]
  if key = vectorPassword ∧ data = vectorSalt ++ [0, 0, 0, 1] then first
  else if key = vectorPassword ∧ data = first then
    [188, 66, 186, 90, 83, 147, 245, 255, 110, 237, 253, 171, 126, 52, 149, 231, 130, 85, 119, 71,
      223, 14, 100, 151, 222, 231, 64, 38, 34, 76, 173, 56]
  else List.replicate 32 0

theorem vectorHmac_length (key data : Bytes) : (vectorHmac key data).length = 32 := by
  rw [vectorHmac]
  split
  · rfl
  · split
    · rfl
    · rfl

theorem pbkdf2_returns_iff_vector :
    pbkdf2Sha256Bytes vmHost vectorHmac .debug 9999 vectorPassword vectorSalt 2 20 =
      .ok (.bytes [174, 77, 12, 149, 175, 107, 70, 211, 45, 10, 223, 249, 40, 240, 109, 208, 42, 48,
        63, 142]) := by
  have hreturns :=
    (@pbkdf2_returns_iff vmHost vectorHmac vectorHmac_length .debug 9999 vectorPassword
    vectorSalt 2 20 (by decide) (by decide) (by decide)).1
  exact hreturns.eq_ok (by decide)

/-- A key of 9997 blocks, from the top of a program on the stack of the machine. -/
theorem pbkdf2_overflows :
    ¬ ∃ result, pbkdf2Sha256Bytes vmHost vectorHmac .debug 9999 [] [] 1 319904 = .ok result := by
  intro h
  have hreturns :=
    @pbkdf2Sha256Bytes_returns vmHost vectorHmac 9999 vectorHmac_length .debug [] [] 1
    319904 0 319904 rfl rfl (by decide) (by decide)
  have hframes := (hreturns.exists_iff).mp h
  exact absurd hframes (by decide)

end Derivation

end Pbkdf2

end Airl.Stdlib
