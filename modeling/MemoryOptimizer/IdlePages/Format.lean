import MemoryOptimizer.IdlePages.PageType
import MemoryOptimizer.Lib.Words
import Mathlib.Data.Nat.Bitwise

/-!
# The idle-page stream

What the kernel module writes and the scanner reads: runs of pages of one type,
a byte each (`PIP_COMPOSE`), and a command that sets the address of the next
page, followed by the address in eight bytes, most significant first.

A stream is the bytes of a list of `PipToken`s; `u8ToU64_u64ToU8`,
`pipType_pipCompose` and `pipSize_pipCompose` are the round trips of its parts.
-/

namespace MemoryOptimizer

/-- `PIP_TYPE`. -/
def pipType (a : ℕ) : ℕ := 0xf &&& (a >>> 4)

/-- `PIP_SIZE`. -/
def pipSize (a : ℕ) : ℕ := 0xf &&& a

/-- `PIP_COMPOSE`. -/
def pipCompose (type nr : ℕ) : ℕ := (type <<< 4) ||| nr

/-- `PIP_CMD_SET_HVA`. -/
def pipCmdSetHva : ℕ := pipCompose ProcIdlePageType.pipCmd.code 0

/-- `u64_to_u8`. -/
def u64ToU8 (n : ℕ) : List ℕ :=
  [uint8 (n >>> 56), uint8 (n >>> 48), uint8 (n >>> 40), uint8 (n >>> 32),
   uint8 (n >>> 24), uint8 (n >>> 16), uint8 (n >>> 8), uint8 n]

/-- `u8_to_u64`. -/
def u8ToU64 (a : List ℕ) : ℕ :=
  ((a.getD 0 0 <<< 56) &&& 0xFF00000000000000) |||
  ((a.getD 1 0 <<< 48) &&& 0x00FF000000000000) |||
  ((a.getD 2 0 <<< 40) &&& 0x0000FF0000000000) |||
  ((a.getD 3 0 <<< 32) &&& 0x000000FF00000000) |||
  ((a.getD 4 0 <<< 24) &&& 0x00000000FF000000) |||
  ((a.getD 5 0 <<< 16) &&& 0x0000000000FF0000) |||
  ((a.getD 6 0 <<< 8) &&& 0x000000000000FF00) |||
  (a.getD 7 0 &&& 0x00000000000000FF)

/-- A byte put at its place. -/
theorem uint8_shiftLeft_and (n k : ℕ) :
    (uint8 (n >>> k) <<< k) &&& (0xFF <<< k) = (n / 2 ^ k % 2 ^ 8) * 2 ^ k := by
  rw [← Nat.shiftLeft_and_distrib, Nat.shiftLeft_eq, uint8, Nat.shiftRight_eq_div_pow]
  congr 1
  exact (Nat.and_two_pow_sub_one_eq_mod _ 8).trans (Nat.mod_mod _ _)

/-- The bytes above and the byte at a place. -/
theorem shiftLeft_or_byte (n k : ℕ) :
    (n / 2 ^ (k + 8)) <<< (k + 8) ||| n / 2 ^ k % 2 ^ 8 * 2 ^ k = (n / 2 ^ k) <<< k := by
  have hlt : n / 2 ^ k % 2 ^ 8 * 2 ^ k < 2 ^ (k + 8) := by
    rw [Nat.add_comm, Nat.pow_add]
    exact Nat.mul_lt_mul_of_pos_right (Nat.mod_lt _ (by decide)) (Nat.two_pow_pos k)
  rw [← Nat.shiftLeft_add_eq_or_of_lt hlt, Nat.shiftLeft_eq, Nat.shiftLeft_eq, Nat.pow_add,
    ← Nat.div_div_eq_div_mul, Nat.mul_comm (2 ^ k) (2 ^ 8), ← Nat.mul_assoc, ← Nat.add_mul,
    Nat.mul_comm _ (2 ^ 8), Nat.div_add_mod]

theorem u8ToU64_u64ToU8 {n : ℕ} (hn : n < 2 ^ 64) (rest : List ℕ) :
    u8ToU64 (u64ToU8 n ++ rest) = n := by
  have htop : n / 2 ^ 56 % 2 ^ 8 * 2 ^ 56 = (n / 2 ^ 56) <<< 56 := by
    rw [Nat.shiftLeft_eq, Nat.mod_eq_of_lt (Nat.div_lt_of_lt_mul (by omega))]
  have hbyte := uint8_shiftLeft_and n
  have hor := shiftLeft_or_byte n
  have hlow : uint8 n &&& 0xFF = n / 2 ^ 0 % 2 ^ 8 * 2 ^ 0 := by simpa using hbyte 0
  have hread : u8ToU64 (u64ToU8 n ++ rest) =
      ((uint8 (n >>> 56) <<< 56) &&& (0xFF <<< 56)) |||
      ((uint8 (n >>> 48) <<< 48) &&& (0xFF <<< 48)) |||
      ((uint8 (n >>> 40) <<< 40) &&& (0xFF <<< 40)) |||
      ((uint8 (n >>> 32) <<< 32) &&& (0xFF <<< 32)) |||
      ((uint8 (n >>> 24) <<< 24) &&& (0xFF <<< 24)) |||
      ((uint8 (n >>> 16) <<< 16) &&& (0xFF <<< 16)) |||
      ((uint8 (n >>> 8) <<< 8) &&& (0xFF <<< 8)) ||| (uint8 n &&& 0xFF) := rfl
  rw [hread, hbyte, hbyte, hbyte, hbyte, hbyte, hbyte, hbyte, hlow, htop, hor 48, hor 40, hor 32,
    hor 24, hor 16, hor 8, hor 0]
  simp

theorem pipCompose_eq {type nr : ℕ} (hnr : nr < 16) : pipCompose type nr = type * 16 + nr := by
  rw [pipCompose, ← Nat.shiftLeft_add_eq_or_of_lt (i := 4) hnr, Nat.shiftLeft_eq]

theorem pipType_eq (a : ℕ) : pipType a = a / 16 % 16 := by
  rw [pipType, Nat.and_comm, Nat.shiftRight_eq_div_pow]
  exact Nat.and_two_pow_sub_one_eq_mod _ 4

theorem pipSize_eq (a : ℕ) : pipSize a = a % 16 := by
  rw [pipSize, Nat.and_comm]
  exact Nat.and_two_pow_sub_one_eq_mod _ 4

theorem pipType_pipCompose {type nr : ℕ} (htype : type < 16) (hnr : nr < 16) :
    pipType (pipCompose type nr) = type := by
  rw [pipType_eq, pipCompose_eq hnr]
  omega

theorem pipSize_pipCompose {type nr : ℕ} (hnr : nr < 16) : pipSize (pipCompose type nr) = nr := by
  rw [pipSize_eq, pipCompose_eq hnr]
  omega

namespace ProcIdlePageType

/-- The enumerator of a value, for values below `IDLE_PAGE_TYPE_MAX`. -/
def ofCode : ℕ → Option ProcIdlePageType
  | 0 => some pteAccessed
  | 1 => some pmdAccessed
  | 2 => some pudPresent
  | 3 => some pteDirty
  | 4 => some pmdDirty
  | 5 => some pteIdle
  | 6 => some pmdIdle
  | 7 => some pmdIdlePtes
  | 8 => some pteHole
  | 9 => some pmdHole
  | 10 => some pipCmd
  | _ => none

theorem ofCode_code (type : ProcIdlePageType) : ofCode type.code = some type := by
  cases type <;> rfl

theorem code_lt (type : ProcIdlePageType) : type.code < 16 := by
  cases type <;> decide

theorem code_injective {t t' : ProcIdlePageType} (h : t.code = t'.code) : t = t' := by
  have := congrArg ofCode h
  rwa [ofCode_code, ofCode_code, Option.some.injEq] at this

/-- The size of a page is a power of two. -/
theorem size_eq {type : ProcIdlePageType} (h : type ≠ pipCmd) : type.size = 2 ^ type.shift := by
  cases type <;> first | rfl | exact absurd rfl h

theorem shift_le (type : ProcIdlePageType) : type.shift ≤ 64 := by
  cases type <;> decide

end ProcIdlePageType

/-- A command or a run of pages in the stream. -/
inductive PipToken where
  | setHva (hva : ℕ)
  | item (type : ProcIdlePageType) (nr : ℕ)
  deriving DecidableEq, Repr

namespace PipToken

/-- The bytes of a token. -/
def bytes : PipToken → List ℕ
  | setHva hva => pipCmdSetHva :: u64ToU8 hva
  | item type nr => [pipCompose type.code nr]

/-- A token that the encoder writes: an address is a word, a run has one to 15
pages of a page type. -/
def Valid : PipToken → Prop
  | setHva hva => hva < 2 ^ 64
  | item type nr => type ≠ .pipCmd ∧ 0 < nr ∧ nr < 16

theorem bytes_ne_nil (token : PipToken) : token.bytes ≠ [] := by
  cases token <;> simp [bytes]

theorem length_bytes_pos (token : PipToken) : 0 < token.bytes.length :=
  List.length_pos_iff.mpr token.bytes_ne_nil

/-- The byte of a run is not the command. -/
theorem pipCompose_ne_setHva {type : ProcIdlePageType} {nr : ℕ} (h : type ≠ .pipCmd)
    (hnr : nr < 16) : pipCompose type.code nr ≠ pipCmdSetHva := by
  intro heq
  have htype := congrArg pipType heq
  rw [pipCmdSetHva, pipType_pipCompose type.code_lt hnr,
    pipType_pipCompose (by decide) (by decide)] at htype
  exact h (ProcIdlePageType.code_injective htype)

end PipToken

/-- The bytes of a stream. -/
def pipBytes (tokens : List PipToken) : List ℕ := tokens.flatMap PipToken.bytes

@[simp] theorem pipBytes_nil : pipBytes [] = [] := rfl

@[simp] theorem pipBytes_cons (token : PipToken) (tokens : List PipToken) :
    pipBytes (token :: tokens) = token.bytes ++ pipBytes tokens := rfl

@[simp] theorem pipBytes_append (tokens tokens' : List PipToken) :
    pipBytes (tokens ++ tokens') = pipBytes tokens ++ pipBytes tokens' := List.flatMap_append

theorem pipBytes_eq_nil {tokens : List PipToken} : pipBytes tokens = [] ↔ tokens = [] := by
  cases tokens with
  | nil => simp
  | cons token tokens => simp [token.bytes_ne_nil]

end MemoryOptimizer
