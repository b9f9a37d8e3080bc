import MemoryOptimizer.Config.Options
import MemoryOptimizer.PmuRefs.MigratePages

/-!
# The option of the address filter

`--filter-addr-range PID/START:SIZE` inserts a range into the filter and records it for
the resets of the filter. The numbers are read by `strtol`, which takes blanks and a
sign, and nothing for the process.

* `AddrRange.Valid` — the range of an option as its usage describes it.
* `parseFilterAddrRange_valid_iff` — the accepted options that are one.
-/

namespace MemoryOptimizer

namespace PmuRefs

open AddressRangeFilter (RangeMap insertRange Separated addresses)

/-- The part of `parse_filter_addr_range_option` behind the slash: `start` and `size`. -/
def parseStartSize (p : List Char) : Option (ℕ × ℕ) :=
  if p = [] then some (ulongOfSigned (-1), 0)
  else
    let p2 := p.dropWhile (· ≠ ':')
    if p2 = [] ∨ p = p2 then none
    else
      let (start, endStr) := strtol p
      if endStr.head? ≠ some ':' then none
      else if p2.tail = [] then some (ulongOfSigned start, 0)
      else
        let (size, endStr) := strtol p2.tail
        if endStr ≠ [] then none else some (ulongOfSigned start, ulongOfSigned size)

/-- The range that `parse_filter_addr_range_option` accepts; none where it exits. -/
def parseAddrRange (str : List Char) : Option AddrRange :=
  if '/' ∉ str then none
  else
    let (pid, endStr) := strtol str
    if endStr.head? ≠ some '/' then none
    else
      (parseStartSize (str.dropWhile (· ≠ '/')).tail).bind fun r =>
        if r.1 ≠ ulongOfSigned (-1) ∧ r.2 ≠ 0 then some ⟨Int32.ofInt pid, r.1, r.2⟩ else none

/-- What an option changes: `arfilter_` and `hmd_config`. -/
structure Filters where
  arfilter : RangeMap
  config : HmdConfig

/-- A range is inserted and recorded. -/
def Filters.add (f : Filters) (ar : AddrRange) : Filters where
  arfilter := insertRange f.arfilter ar.pid ar.start ar.size
  config := { f.config with arfilter := f.config.arfilter ++ [ar] }

/-- `parse_filter_addr_range_option`. -/
def parseFilterAddrRangeOption (f : Filters) (str : List Char) : Option Filters :=
  (parseAddrRange str).map f.add

/-- A number in decimal. -/
def Decimal (text : List Char) : Prop := text ≠ [] ∧ ∀ c ∈ text, c.isDigit = true

/-- The option is `PID/START:SIZE` in decimal, and the range is not empty and ends in the
address space. -/
structure AddrRange.Valid (str : List Char) (ar : AddrRange) : Prop where
  format : ∃ pid start size, str = pid ++ '/' :: (start ++ ':' :: size) ∧
    Decimal pid ∧ Decimal start ∧ Decimal size
  size_pos : 0 < ar.size
  stop_lt : ar.start + ar.size < 2 ^ 64

/-- The option has no blank and no sign, and does not begin with the slash. -/
def Plain (str : List Char) : Prop :=
  (∀ c ∈ str, isSpace c = false ∧ c ≠ '+' ∧ c ≠ '-') ∧ str.head? ≠ some '/'

/-! ### Numbers without blanks and signs -/

section Numbers

variable {text : List Char}

theorem strtol_of_plain (h : ∀ c ∈ text, isSpace c = false ∧ c ≠ '+' ∧ c ≠ '-') :
    strtol text = (0, text) ∨
      ∃ digits, text = digits ++ (strtol text).2 ∧ Decimal digits ∧
        0 ≤ (strtol text).1 ∧ (strtol text).1 < 2 ^ 63 := by
  rcases strtol_cases text with
    hself | ⟨blanks, sign, digits, htext, hblanks, hsign, hne, hdigits, hvalue⟩
  · exact .inl hself
  have hblank : blanks = [] := by
    refine List.eq_nil_iff_forall_not_mem.mpr fun c hc => ?_
    have hplain := (h c (htext ▸ List.mem_append_left _ hc)).1
    rw [hblanks c hc] at hplain
    cases hplain
  have hmem : ∀ c ∈ sign, c ∈ text := fun c hc =>
    htext ▸ List.mem_append_right _ (List.mem_append_left _ hc)
  have hsigned : sign = [] := by
    rcases hsign with hnil | rfl | rfl
    · exact hnil
    · exact absurd rfl (h '+' (hmem '+' List.mem_cons_self)).2.1
    · exact absurd rfl (h '-' (hmem '-' List.mem_cons_self)).2.2
  refine .inr ⟨digits, ?_, ⟨hne, hdigits⟩, ?_⟩
  · rw [hblank, hsigned] at htext
    exact htext
  · have hnonneg := digitsValue_nonneg hdigits
    rw [hvalue, if_neg (by rw [hsigned]; decide)]
    constructor <;> omega

theorem dropWhile_of_notMem {c : Char} {pre rest : List Char} (h : c ∉ pre) :
    (pre ++ c :: rest).dropWhile (· ≠ c) = c :: rest := by
  rw [List.dropWhile_append_of_pos]
  · simp
  · intro d hd
    simp only [ne_eq, decide_not, Bool.not_eq_true', decide_eq_false_iff_not]
    rintro rfl
    exact h hd

theorem Decimal.notMem {c : Char} {digits : List Char} (h : Decimal digits)
    (hc : c.isDigit = false) : c ∉ digits := by
  intro hmem
  rw [h.2 c hmem] at hc
  cases hc

end Numbers

/-! ### Accepted options -/

/-- What is behind the slash of an accepted option. -/
theorem parseStartSize_eq_some {p : List Char} {r : ℕ × ℕ} (h : parseStartSize p = some r)
    (hstart : r.1 ≠ ulongOfSigned (-1)) (hsize : r.2 ≠ 0) :
    p ≠ p.dropWhile (· ≠ ':') ∧ (strtol p).2.head? = some ':' ∧
      (p.dropWhile (· ≠ ':')).tail ≠ [] ∧ (strtol (p.dropWhile (· ≠ ':')).tail).2 = [] ∧
      r = (ulongOfSigned (strtol p).1, ulongOfSigned (strtol (p.dropWhile (· ≠ ':')).tail).1) := by
  unfold parseStartSize at h
  split at h
  · obtain rfl := Option.some_inj.mp h
    exact absurd rfl hstart
  · dsimp only at h
    split at h
    · cases h
    · next hcolon =>
      split at h
      · cases h
      · next hend =>
        split at h
        · obtain rfl := Option.some_inj.mp h
          exact absurd rfl hsize
        · next htail =>
          split at h
          · cases h
          · next hrest =>
            obtain rfl := Option.some_inj.mp h
            exact ⟨fun heq => hcolon (.inr heq), not_not.mp hend, htail, not_not.mp hrest, rfl⟩

/-- What is accepted. -/
theorem parseAddrRange_eq_some {str : List Char} {ar : AddrRange}
    (h : parseAddrRange str = some ar) :
    (strtol str).2.head? = some '/' ∧
      parseStartSize (str.dropWhile (· ≠ '/')).tail = some (ar.start, ar.size) ∧
      ar.start ≠ ulongOfSigned (-1) ∧ ar.size ≠ 0 := by
  unfold parseAddrRange at h
  split at h
  · cases h
  · dsimp only at h
    split at h
    · cases h
    · next hend =>
      obtain ⟨r, hr, hif⟩ := Option.bind_eq_some_iff.mp h
      split at hif
      · next hrange =>
        obtain rfl := Option.some_inj.mp hif
        exact ⟨not_not.mp hend, hr, hrange⟩
      · cases hif

/-- An accepted option without blanks and signs that does not begin with the slash. -/
theorem AddrRange.valid_of_plain {str : List Char} {ar : AddrRange}
    (h : parseAddrRange str = some ar) (hplain : Plain str) : ar.Valid str := by
  obtain ⟨hslash, hrest, hstart, hsize⟩ := parseAddrRange_eq_some h
  obtain ⟨hchars, hhead⟩ := hplain
  rcases strtol_of_plain hchars with hself | ⟨pid, hpid, hpidDecimal, -⟩
  · rw [hself] at hslash
    exact absurd hslash hhead
  obtain ⟨p, hp⟩ := List.head?_eq_some_iff.mp hslash
  rw [hp] at hpid
  have hdrop : (str.dropWhile (· ≠ '/')).tail = p := by
    rw [hpid, dropWhile_of_notMem (hpidDecimal.notMem (by decide)), List.tail_cons]
  rw [hdrop] at hrest
  obtain ⟨hcolon, hend, hne, hstop, hr⟩ := parseStartSize_eq_some hrest hstart hsize
  have hpchars : ∀ c ∈ p, isSpace c = false ∧ c ≠ '+' ∧ c ≠ '-' := fun c hc =>
    hchars c (hpid ▸ List.mem_append_right _ (List.mem_cons_of_mem _ hc))
  rcases strtol_of_plain hpchars with hself | ⟨start, hstartText, hstartDecimal, hstart0, hstart1⟩
  · -- nothing is read before a colon that is not the first character
    rw [hself] at hend
    obtain ⟨q, rfl⟩ := List.head?_eq_some_iff.mp hend
    exact absurd (by simp) hcolon
  obtain ⟨q, hq⟩ := List.head?_eq_some_iff.mp hend
  rw [hq] at hstartText
  have hdrop' : (p.dropWhile (· ≠ ':')).tail = q := by
    rw [hstartText, dropWhile_of_notMem (hstartDecimal.notMem (by decide)), List.tail_cons]
  rw [hdrop'] at hne hstop hr
  have hqchars : ∀ c ∈ q, isSpace c = false ∧ c ≠ '+' ∧ c ≠ '-' := fun c hc =>
    hpchars c (hstartText ▸ List.mem_append_right _ (List.mem_cons_of_mem _ hc))
  rcases strtol_of_plain hqchars with hself | ⟨size, hsizeText, hsizeDecimal, hsize0, hsize1⟩
  · rw [hself] at hstop
    exact absurd hstop hne
  rw [hstop, List.append_nil] at hsizeText
  obtain ⟨hstartEq, hsizeEq⟩ := Prod.mk.inj hr
  have hstartNat := ulongOfSigned_of_nonneg hstart0 (by omega)
  have hsizeNat := ulongOfSigned_of_nonneg hsize0 (by omega)
  refine ⟨⟨pid, start, size, ?_, hpidDecimal, hstartDecimal, hsizeDecimal⟩, ?_, ?_⟩
  · rw [← hsizeText, ← hstartText]
    exact hpid
  · exact Nat.pos_of_ne_zero hsize
  · rw [hstartEq, hsizeEq]
    omega

theorem Decimal.plain {digits : List Char} (h : Decimal digits) :
    ∀ c ∈ digits, isSpace c = false ∧ c ≠ '+' ∧ c ≠ '-' := by
  intro c hc
  have hdigit := h.2 c hc
  have hge : 48 ≤ c.toNat := (Char.isDigit_iff_toNat.mp hdigit).1
  have hne : ∀ d : Char, d.isDigit = false → c ≠ d := by
    rintro d hd rfl
    rw [hdigit] at hd
    cases hd
  refine ⟨?_, hne '+' (by decide), hne '-' (by decide)⟩
  simp [isSpace, hne ' ' (by decide), hne '\t' (by decide), hne '\n' (by decide),
    hne '\r' (by decide), show c.toNat ≠ 11 by omega, show c.toNat ≠ 12 by omega]

/-- The format of the usage has no blanks and signs, and does not begin with a slash. -/
theorem AddrRange.Valid.plain {str : List Char} {ar : AddrRange} (h : ar.Valid str) :
    Plain str := by
  obtain ⟨pid, start, size, rfl, hpid, hstart, hsize⟩ := h.format
  constructor
  · intro c hc
    rcases List.mem_append.mp hc with hc | hc
    · exact hpid.plain c hc
    rcases List.mem_cons.mp hc with rfl | hc
    · decide
    rcases List.mem_append.mp hc with hc | hc
    · exact hstart.plain c hc
    rcases List.mem_cons.mp hc with rfl | hc
    · decide
    · exact hsize.plain c hc
  · intro hhead
    obtain ⟨c, cs, rfl⟩ := List.exists_cons_of_ne_nil hpid.1
    obtain rfl : c = '/' := Option.some_inj.mp hhead
    exact absurd (hpid.2 '/' List.mem_cons_self) (by decide)

/-- Every option that is accepted: what it adds is a valid range of its text if and only
if it has no blank and no sign, and does not begin with the slash. -/
theorem parseFilterAddrRangeOption_valid_iff {f f' : Filters} {str : List Char}
    (h : parseFilterAddrRangeOption f str = some f') :
    (∃ ar : AddrRange, f' = f.add ar ∧ ar.Valid str) ↔ Plain str := by
  constructor
  · rintro ⟨ar, -, hvalid⟩
    exact hvalid.plain
  · intro hplain
    obtain ⟨ar, har, rfl⟩ := Option.map_eq_some_iff.mp h
    exact ⟨ar, rfl, AddrRange.valid_of_plain har hplain⟩

theorem parseFilterAddrRangeOption_valid_example :
    (∃ ar : AddrRange, Filters.add ⟨SortedMap.empty, pageConfig []⟩ ⟨1, 1000, 1000⟩ =
        Filters.add ⟨SortedMap.empty, pageConfig []⟩ ar ∧ ar.Valid "1/1000:1000".toList) ↔
      Plain "1/1000:1000".toList := by
  have har : parseAddrRange "1/1000:1000".toList = some ⟨1, 1000, 1000⟩ := by decide
  refine parseFilterAddrRangeOption_valid_iff ?_
  rw [parseFilterAddrRangeOption, har, Option.map_some]

/-- The process may be missing, and a size may be negative: then the range ends before it
starts. -/
theorem parseAddrRange_accepts :
    parseAddrRange "/1:1".toList = some ⟨0, 1, 1⟩ ∧
      parseAddrRange "1/1:-1".toList = some ⟨1, 1, 2 ^ 64 - 1⟩ ∧
      (∀ ar : AddrRange, ¬ ar.Valid "/1:1".toList) ∧
      ¬ (⟨1, 1, 2 ^ 64 - 1⟩ : AddrRange).Valid "1/1:-1".toList := by
  refine ⟨by decide, by decide, ?_, ?_⟩
  · rintro ar ⟨⟨pid, start, size, htext, hpid, -⟩, -, -⟩
    obtain ⟨c, cs, rfl⟩ := List.exists_cons_of_ne_nil hpid.1
    obtain rfl : '/' = c := (List.cons.inj htext).1
    exact absurd (hpid.2 '/' List.mem_cons_self) (by decide)
  · intro hvalid
    exact absurd hvalid.stop_lt (by decide)

/-! ### All options of a command line -/

section Options

variable {f f' : Filters} {str : List Char} {options : List (List Char)}

/-- A reset puts back what the options have inserted. -/
theorem resetArfilter_options (h : f.arfilter = f.config.resetArfilter SortedMap.empty)
    (hrun : options.foldlM parseFilterAddrRangeOption f = some f') :
    f'.arfilter = f'.config.resetArfilter SortedMap.empty := by
  induction options generalizing f with
  | nil => cases hrun; exact h
  | cons str options ih =>
      obtain ⟨f₁, hstr, hrest⟩ := Option.bind_eq_some_iff.mp hrun
      obtain ⟨ar, -, rfl⟩ := Option.map_eq_some_iff.mp hstr
      refine ih ?_ hrest
      simp only [Filters.add, HmdConfig.resetArfilter, List.foldl_append, List.foldl_cons,
        List.foldl_nil]
      rw [h, HmdConfig.resetArfilter]

/-- On a separated filter a plain option adds exactly its range. -/
theorem addresses_parseFilterAddrRangeOption (hsep : Separated f.arfilter)
    (h : parseFilterAddrRangeOption f str = some f') (hplain : Plain str) :
    ∃ ar : AddrRange, f' = f.add ar ∧ Separated f'.arfilter ∧
      addresses f'.arfilter ar.pid =
        addresses f.arfilter ar.pid ∪ {addr | ar.start ≤ addr ∧ addr < ar.start + ar.size} := by
  obtain ⟨ar, har, rfl⟩ := Option.map_eq_some_iff.mp h
  have hvalid := AddrRange.valid_of_plain har hplain
  exact ⟨ar, rfl, hsep.insertRange ar.pid hvalid.size_pos hvalid.stop_lt,
    AddressRangeFilter.addresses_insertRange hsep ar.pid hvalid.size_pos hvalid.stop_lt⟩

/-- Plain options keep a configuration that fits, which is what the migration of the
pages relies on. -/
theorem fits_options (hfits : f.config.Fits) (hplain : ∀ str ∈ options, Plain str)
    (hrun : options.foldlM parseFilterAddrRangeOption f = some f') : f'.config.Fits := by
  induction options generalizing f with
  | nil => cases hrun; exact hfits
  | cons str options ih =>
      obtain ⟨f₁, hstr, hrest⟩ := Option.bind_eq_some_iff.mp hrun
      obtain ⟨ar, har, rfl⟩ := Option.map_eq_some_iff.mp hstr
      refine ih (fun range hrange => ?_) (fun s hs => hplain s (List.mem_cons_of_mem _ hs)) hrest
      rcases List.mem_append.mp hrange with hold | hnew
      · exact hfits range hold
      · obtain rfl := List.mem_singleton.mp hnew
        have hvalid := AddrRange.valid_of_plain har (hplain str List.mem_cons_self)
        exact ⟨hvalid.size_pos, hvalid.stop_lt⟩

end Options

end PmuRefs

end MemoryOptimizer
