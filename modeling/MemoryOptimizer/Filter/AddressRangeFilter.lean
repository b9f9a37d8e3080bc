import MemoryOptimizer.Lib.SortedMap
import MemoryOptimizer.Lib.Words
import Mathlib.Data.Prod.Lex

/-!
# `AddressRangeFilter`

The address filter of the hot-page migrator: one ordered map from
`(pid, start)` to a size, shared by all processes.  This file is the
translation of `AddressRangeFilter.cc`; `Filter.RangeSet` says what it stores.

* `searchRange` — the lookup every operation starts from: the range holding an
  address, the range below it and the entry above it;
* `removeRanges` — the erasing loop, from `rm_start` up to `rm_end`, and the
  final unconditional erase;
* `insertRange` — merge with the neighbours, remove what is swallowed, insert.

A step back from `rmap.begin()` yields `none`, which the code reads as "no
lower range".
-/

namespace MemoryOptimizer.AddressRangeFilter

/-- `AddressRangeFilter::Key`. -/
@[ext] structure Key where
  pid : ℕ
  start : ℕ
  deriving DecidableEq, Repr

/-- `AddressRangeFilter::Range`. -/
structure Range where
  size : ℕ
  deriving DecidableEq, Repr

/-- `Key::operator<`: by process, then by start. -/
instance : LinearOrder Key :=
  LinearOrder.lift' (fun k : Key => toLex (k.pid, k.start)) fun a b h => by
    have h' : (a.pid, a.start) = (b.pid, b.start) := toLex_inj.mp h
    exact Key.ext (congrArg Prod.fst h') (congrArg Prod.snd h')

theorem Key.lt_iff {a b : Key} :
    a < b ↔ a.pid < b.pid ∨ a.pid = b.pid ∧ a.start < b.start :=
  Prod.Lex.toLex_lt_toLex

theorem Key.le_iff {a b : Key} :
    a ≤ b ↔ a.pid < b.pid ∨ a.pid = b.pid ∧ a.start ≤ b.start :=
  Prod.Lex.toLex_le_toLex

/-- `std::map<Key, Range>`. -/
abbrev RangeMap := SortedMap Key Range

/-- A `std::map` iterator; `none` is `rmap.end()`. -/
abbrev Iterator := Option (Key × Range)

/-- The three iterators `search_range` hands back. -/
structure Lookup where
  it : Iterator
  lower : Iterator
  upper : Iterator
  deriving DecidableEq

/-- `AddressRangeFilter::search_range`. -/
def searchRange (rmap : RangeMap) (pid : Int32) (addr : ℕ) : Lookup :=
  if rmap.entries = [] then ⟨none, none, none⟩ else
    let upper := rmap.upperBound ⟨ulongOfInt pid, addr⟩
    match rmap.prev upper with
    | none => ⟨none, none, upper⟩
    | some (k, r) =>
        if k.pid ≠ ulongOfInt pid then ⟨none, none, upper⟩
        else if addr < ulong (k.start + r.size) then
          -- Range is found, try to get the lower range
          ⟨some (k, r), rmap.prev (some (k, r)), upper⟩
        else ⟨none, some (k, r), upper⟩

/-- `AddressRangeFilter::search_address`. -/
def searchAddress (rmap : RangeMap) (pid : Int32) (addr : ℕ) : Bool :=
  (searchRange rmap pid addr).it.isSome

/-- `AddressRangeFilter::insert_new_range`. -/
def insertNewRange (rmap : RangeMap) (pid : Int32) (start size : ℕ) : RangeMap :=
  rmap.insert ⟨ulongOfInt pid, start⟩ ⟨size⟩

/-- The `while` loop of `remove_ranges`, with a bound on its iterations. -/
def removeLoop (rmEnd : Iterator) (pid : Int32) (newStart newEnd : ℕ) :
    ℕ → RangeMap → Iterator → RangeMap × Iterator
  | 0, rmap, it => (rmap, it)
  | _ + 1, rmap, none => (rmap, none)
  | fuel + 1, rmap, some (k, r) =>
      if rmEnd.map Prod.fst = some k then (rmap, some (k, r))
      else if ulongOfInt pid ≠ k.pid then
        removeLoop rmEnd pid newStart newEnd fuel rmap (rmap.next k)
      else if newStart ≤ k.start ∧ newEnd ≥ ulong (k.start + r.size) then
        removeLoop rmEnd pid newStart newEnd fuel (rmap.erase k)
          ((rmap.erase k).next k)
      else
        removeLoop rmEnd pid newStart newEnd fuel rmap (rmap.next k)

/-- `AddressRangeFilter::remove_ranges`. -/
def removeRanges (rmap : RangeMap) (rmStart rmEnd : Iterator) (pid : Int32)
    (newStart newEnd : ℕ) : RangeMap :=
  let begin' := if rmStart = none then rmap.first else rmStart
  let (rmap', it) :=
    removeLoop rmEnd pid newStart newEnd (rmap.entries.length + 1) rmap begin'
  match it with
  | none => rmap'
  | some (k, _) => rmap'.erase k

/-- The lower end of an insertion: `new_start` and `rm_start`. -/
def extendDown (rmap : RangeMap) (pid : Int32) (start : ℕ) : ℕ × Iterator :=
  let found := searchRange rmap pid start
  match found.it with
  | some (k, r) => (k.start, some (k, r))
  | none =>
      match found.lower with
      | some (k, r) =>
          if ulongOfInt pid = k.pid ∧ ulong (k.start + r.size) = start then
            (k.start, some (k, r))
          else (start, rmap.next k)
      | none => (start, none)

/-- The upper end of an insertion: `new_end` and `rm_end`. -/
def extendUp (rmap : RangeMap) (pid : Int32) (start size : ℕ) : ℕ × Iterator :=
  let newEnd := ulong (start + size)
  let found := searchRange rmap pid (usub (ulong (start + size)) 1)
  match found.it with
  | some (k, r) => (ulong (k.start + r.size), some (k, r))
  | none =>
      match found.upper with
      | some (k, r) =>
          if ulongOfInt pid = k.pid ∧ newEnd = k.start then
            (ulong (k.start + r.size), some (k, r))
          else (newEnd, none)
      | none => (newEnd, none)

/-- `AddressRangeFilter::insert_range`. -/
def insertRange (rmap : RangeMap) (pid : Int32) (start size : ℕ) : RangeMap :=
  let (newStart, rmStart) := extendDown rmap pid start
  let (newEnd, rmEnd) := extendUp rmap pid start size
  let rmap' := removeRanges rmap rmStart rmEnd pid newStart newEnd
  insertNewRange rmap' pid newStart (usub newEnd newStart)

/-- `AddressRangeFilter::clear`. -/
def clear (_rmap : RangeMap) : RangeMap := SortedMap.empty

end MemoryOptimizer.AddressRangeFilter
