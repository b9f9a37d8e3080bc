import Mathlib.Data.Int.Notation
import Mathlib.Data.Nat.Notation
import Mathlib.Data.List.Basic
import Mathlib.Data.List.TakeWhile
import MemoryOptimizer.Lib.Words

/-!
# The configuration

The part of `Option.h` that the collection of the NUMA nodes, the parser of the
configuration file and the matching of policies share, and C's reading of
decimal numbers.
-/

namespace MemoryOptimizer

/-! ### Numbers in texts -/

/-- `isspace`. -/
def isSpace (c : Char) : Bool :=
  c = ' ' || c = '\t' || c = '\n' || c = '\r' || c.toNat = 11 || c.toNat = 12

/-- The value of decimal digits, most significant first. -/
def digitsValue (ds : List Char) : ℤ :=
  ds.foldl (fun n d => 10 * n + (d.toNat - 48 : ℤ)) 0

/-- `%d` of `sscanf`: blanks, a sign and at least one digit. The result is the
number and the text behind it. -/
def scanInt (text : List Char) : Option (ℤ × List Char) :=
  let text := text.dropWhile isSpace
  let (sign, text) : ℤ × List Char := match text with
    | '-' :: rest => (-1, rest)
    | '+' :: rest => (1, rest)
    | _ => (1, text)
  let digits := text.takeWhile Char.isDigit
  if digits = [] then none else some (sign * digitsValue digits, text.dropWhile Char.isDigit)

/-- `strtol` in base ten: the number, cut to the range of `long`, and `end_str`; all of
the text where it does not begin with a number. -/
def strtol (text : List Char) : ℤ × List Char :=
  match scanInt text with
  | some (n, rest) => (max (-2 ^ 63) (min n (2 ^ 63 - 1)), rest)
  | none => (0, text)

theorem digitsValue_nonneg {ds : List Char} (h : ∀ c ∈ ds, c.isDigit = true) :
    0 ≤ digitsValue ds := by
  have hfold : ∀ n : ℤ, 0 ≤ n → 0 ≤ ds.foldl (fun n d => 10 * n + (d.toNat - 48 : ℤ)) n := by
    induction ds with
    | nil => exact fun n hn => hn
    | cons d ds ih =>
        intro n hn
        have hd : 48 ≤ d.toNat := (Char.isDigit_iff_toNat.mp (h d List.mem_cons_self)).1
        have hstep : 0 ≤ 10 * n + (d.toNat - 48 : ℤ) := by omega
        exact ih (fun c hc => h c (List.mem_cons_of_mem _ hc)) _ hstep
  exact hfold 0 le_rfl

/-- The sign that `scanInt` reads, and the text behind it. -/
theorem sign_cases (text : List Char) :
    ∃ sign rest, text = sign ++ rest ∧ (sign = [] ∨ sign = ['+'] ∨ sign = ['-']) ∧
      (match text with
        | '-' :: rest => ((-1 : ℤ), rest)
        | '+' :: rest => (1, rest)
        | _ => (1, text)) = (if sign = ['-'] then -1 else 1, rest) := by
  split
  · next rest => exact ⟨['-'], rest, rfl, .inr (.inr rfl), rfl⟩
  · next rest => exact ⟨['+'], rest, rfl, .inr (.inl rfl), rfl⟩
  · exact ⟨[], text, rfl, .inl rfl, rfl⟩

/-- `strtol` reads nothing, or blanks, perhaps a sign, and digits. -/
theorem strtol_cases (text : List Char) :
    strtol text = (0, text) ∨
      ∃ blanks sign digits, text = blanks ++ (sign ++ (digits ++ (strtol text).2)) ∧
        (∀ c ∈ blanks, isSpace c = true) ∧ (sign = [] ∨ sign = ['+'] ∨ sign = ['-']) ∧
        digits ≠ [] ∧ (∀ c ∈ digits, c.isDigit = true) ∧
        (strtol text).1 = max (-2 ^ 63)
          (min ((if sign = ['-'] then -1 else 1) * digitsValue digits) (2 ^ 63 - 1)) := by
  obtain ⟨sign, rest, hrest, hsign, hmatch⟩ := sign_cases (text.dropWhile isSpace)
  have hscan : scanInt text = if rest.takeWhile Char.isDigit = [] then none else
      some ((if sign = ['-'] then -1 else 1) * digitsValue (rest.takeWhile Char.isDigit),
        rest.dropWhile Char.isDigit) := by
    unfold scanInt
    dsimp only
    rw [hmatch]
  by_cases hdigits : rest.takeWhile Char.isDigit = []
  · rw [if_pos hdigits] at hscan
    exact .inl (by rw [strtol, hscan])
  · rw [if_neg hdigits] at hscan
    refine .inr ⟨text.takeWhile isSpace, sign, rest.takeWhile Char.isDigit, ?_, ?_, hsign, hdigits,
      ?_, ?_⟩
    · rw [strtol, hscan]
      dsimp only
      rw [List.takeWhile_append_dropWhile, ← hrest, List.takeWhile_append_dropWhile]
    · exact fun c hc => List.mem_takeWhile_imp hc
    · exact fun c hc => List.mem_takeWhile_imp hc
    · rw [strtol, hscan]

/-- `atoi`, which is `(int)strtol`. -/
def atoi (s : String) : ℤ := intOfLong (strtol s.toList).1

/-! ### The description of the nodes -/

/-- `struct NumaHWConfig`. -/
structure NumaHWConfig where
  numaDramList : String
  numaPmemList : String
  pmemDramMap : String
deriving DecidableEq

/-- `is_valid`: one of the texts is not empty. -/
def NumaHWConfig.isValid (config : NumaHWConfig) : Bool :=
  config.numaDramList ≠ "" || config.numaPmemList ≠ "" || config.pmemDramMap ≠ ""

/-- `NumaHWConfigEntry`, the fields of one node by their names. -/
abbrev NumaHWConfigEntry := List (String × String)

/-- `entry[key] = value`. -/
def NumaHWConfigEntry.set (entry : NumaHWConfigEntry) (key value : String) : NumaHWConfigEntry :=
  (key, value) :: entry.filter fun field => field.1 ≠ key

/-- `find_map`. -/
def findMap (entry : NumaHWConfigEntry) (key : String) : Option String := entry.lookup key

/-- `NumaHWConfigV2`. -/
abbrev NumaHWConfigV2 := List NumaHWConfigEntry

end MemoryOptimizer
