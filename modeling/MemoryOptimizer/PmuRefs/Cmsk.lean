import MemoryOptimizer.Lib.Words
import Mathlib.Data.List.Basic

/-!
# The hot-page sketch

`pmu-refs/cmsk.cc`: a count-min sketch (`cms`) in front of a hash table of
addresses with their counts (`achash`).  An interval ages both, feeds the
samples one by one, and finally sorts the table and cuts it at the threshold.

* `unsigned int` arithmetic is reduced to 32 bits, a `cms_count_t` and the
  `count` of an item to 16, its `pid` and `next` to 24.
* Following the links of a bucket is a loop without a bound in the source; here
  it has one, and running out of it is `none`.
* A write outside `hist` is noted in `histOverrun`, and stays noted: what it does to the
  process is not followed further.
* `std::sort` is any function that returns a permutation in the order of
  `achash_cmp` (`SortByCount`).
-/

namespace MemoryOptimizer.PmuRefs

/-- Reduction to `cms_count_t`. -/
def count16 (n : ℕ) : ℕ := n % 2 ^ 16

/-- Reduction to a 24-bit field. -/
def field24 (n : ℕ) : ℕ := n % 2 ^ 24

/-- Subtraction of `unsigned int`s, which wraps. -/
def usub32 (a b : ℕ) : ℕ := uint (a + (2 ^ 32 - b))

/-- `hasha`. -/
def hasha : List ℕ :=
  [0x303d3429, 0x39b02a15, 0x22984495, 0x330d690f,
   0x37f09895, 0x2c4967f1, 0x3eacfedd, 0x24753fa3,
   0x2684579f, 0x361962b5, 0x2e714de9, 0x29ae22e9,
   0x117433d5, 0x143e3891, 0x21deb47f, 0x28df71e1,
   0x2f633edf, 0x12addc0d, 0x1b9d2fc1, 0x12fded03,
   0x2d9758a7, 0x2a34b455, 0x3172715b, 0x148b815b,
   0x28c9b9fb, 0x17a31d75, 0x15fe7b69, 0x26987d49,
   0x25e2440f, 0x1b4ab775, 0x2992a0d7, 0x2903b75f]

/-- `hashb`. -/
def hashb : List ℕ :=
  [0x382a9bb5, 0x14ea0b57, 0x3d09e275, 0x2fe39ce7,
   0x3d359391, 0x17638f3f, 0x3725344f, 0x3baee8dd,
   0x3e4c6b57, 0x39f57e4b, 0x119725c1, 0x154d3bf9,
   0x3cf63121, 0x221fe771, 0x34255333, 0x3a9dff77,
   0x2e607ae3, 0x359b44f5, 0x379f3a65, 0x366f4147,
   0x2d10d9e9, 0x37ff0489, 0x3a4d42dd, 0x313f83a1,
   0x26642525, 0x244ef881, 0x1d663f5d, 0x1ada7899,
   0x1f896d3d, 0x23d43f21, 0x3e128f1f, 0x3d329827]

/-- `hashp`. -/
def hashp : List ℕ :=
  [0x329449f1, 0x342b5385, 0x13e7b215, 0x1094d12d,
   0x1a8fad3b, 0x2b66f2f5, 0x2b24b01d, 0x29fde021,
   0x28a9b9fd, 0x21e3bb4d, 0x2ed4524f, 0x215b1017,
   0x33ae4a5d, 0x17c569c9, 0x2e32fa01, 0x1e913343,
   0x1c41f0dd, 0x2271c37f, 0x2e534adb, 0x22eaf111,
   0x1b3b265d, 0x18c8c5a3, 0x21880fd5, 0x14d3b879,
   0x39e4f58f, 0x1b2e22c5, 0x31bb8bdd, 0x32e9cacb,
   0x25d22a8b, 0x11eff19b, 0x32f5b809, 0x10144961]

/-- `hash`. -/
def hash (item1 item2 i : ℕ) : ℕ :=
  uint (ulong (item1 * hasha.getD i 0 + item2 * hashb.getD i 0) / hashp.getD i 0)

/-! ### The sketch -/

/-- `struct cms`. -/
structure Cms where
  widthOrder : ℕ
  widthMask : ℕ
  depth : ℕ
  total : ℕ
  matrix : List (List ℕ)
  deriving DecidableEq, Repr

/-- `cms_init`. -/
def cmsInit (widthOrder depth : ℕ) : Cms :=
  { widthOrder := widthOrder
    widthMask := 2 ^ widthOrder - 1
    depth := depth
    total := 0
    matrix := List.replicate depth (List.replicate (2 ^ widthOrder) 0) }

/-- `cms_clear`. -/
def cmsClear (cms : Cms) : Cms :=
  { cms with matrix := cms.matrix.map fun row => row.map fun _ => 0, total := 0 }

/-- `cms_age`. -/
def cmsAge (cms : Cms) : Cms :=
  { cms with
    matrix := cms.matrix.map fun row => row.map fun count => count >>> 1
    total := cms.total >>> 1 }

/-- `cms_error`; the source requires `width_order` to be at least 1. -/
def cmsError (cms : Cms) : ℕ := cms.total >>> (cms.widthOrder - 1)

/-- The loop of `cms_update` over the first rows: the sketch, the smallest count
and the hash of the last row. -/
def cmsUpdateRows (item1 item2 : ℕ) (cms : Cms) : ℕ → Cms × ℕ × ℕ
  | 0 => (cms, 0xffff, 0)
  | i + 1 =>
      let (cms, cmin, _) := cmsUpdateRows item1 item2 cms i
      let h := hash item1 item2 i &&& cms.widthMask
      let val := count16 ((cms.matrix.getD i []).getD h 0 + 1)
      let cms := { cms with matrix := cms.matrix.modify i fun row => row.set h val }
      (cms, if val < cmin then val else cmin, h)

/-- `cms_update`. -/
def cmsUpdate (cms : Cms) (item1 item2 : ℕ) : Cms × ℕ × ℕ :=
  let (cms, cmin, h) := cmsUpdateRows item1 item2 cms cms.depth
  ({ cms with total := uint (cms.total + 1) }, cmin, h)

/-! ### The table -/

/-- `struct achash_item`. -/
structure AchashItem where
  addr : ℕ
  pid : ℕ
  next : ℕ
  count : ℕ
  deriving DecidableEq, Repr, Inhabited

/-- `struct achash`, and whether there was a write outside `hist`. -/
structure Achash where
  hashMode : Bool
  threshold : ℕ
  size : ℕ
  mask : ℕ
  len : ℕ
  samples : ℕ
  buckets : List ℕ
  items : List AchashItem
  hist : List ℕ
  histMax : ℕ
  histOverrun : Bool
  deriving DecidableEq, Repr

/-- `ACHASH_SIZE_ORDER_MAX`. -/
def achashSizeOrderMax : ℕ := 23

/-- `achash_init`; a negative `hist_max`, for which `resize` throws, is left out. -/
def achashInit (hashMode : Bool) (threshold sizeOrder histMax : ℕ) : Option Achash :=
  if sizeOrder > achashSizeOrderMax then none
  else some
    { hashMode := hashMode
      threshold := threshold
      size := 2 ^ sizeOrder
      mask := 2 ^ sizeOrder - 1
      len := 0
      samples := 0
      buckets := List.replicate (2 ^ sizeOrder) 0
      items := List.replicate (2 ^ sizeOrder) default
      hist := List.replicate histMax 0
      histMax := histMax
      histOverrun := false }

/-- `achash_clear`: the items stay. -/
def achashClear (a : Achash) : Achash :=
  { a with
    len := 0
    samples := 0
    buckets := a.buckets.map fun _ => 0
    hist := a.hist.map fun _ => 0 }

/-- `hist_index`: the count as an `int`, or the last index. -/
def histIndex (a : Achash) (count : ℕ) : ℤ :=
  if intOfUlong count ≥ a.histMax then a.histMax - 1 else intOfUlong count

/-- An access to `hist[index]`. -/
def histModify (a : Achash) (index : ℤ) (f : ℕ → ℕ) : Achash :=
  { a with
    hist := if 0 ≤ index then a.hist.modify index.toNat f else a.hist
    histOverrun := a.histOverrun || !decide (0 ≤ index ∧ index < a.hist.length) }

/-- `hist_inc`. -/
def histInc (a : Achash) (count : ℕ) : Achash :=
  histModify a (histIndex a count) fun n => uint (n + 1)

/-- `hist_dec`. -/
def histDec (a : Achash) (count : ℕ) : Achash :=
  histModify a (histIndex a count) fun n => usub32 n 1

/-- The count a new item starts with. -/
def initialCount (a : Achash) : ℕ := if a.hashMode then 1 else a.threshold

/-- `achash_new_item`; the number of the new item is the new `len`. -/
def achashNewItem (a : Achash) (addr pid : ℕ) : Achash :=
  let item : AchashItem := ⟨addr, field24 pid, 0, count16 (initialCount a)⟩
  let a := { a with
    items := a.items.set a.len item
    samples := uint (a.samples + initialCount a)
    len := a.len + 1 }
  if a.hashMode then histInc a 1 else a

/-- `achash_item`; items are numbered from 1. -/
def achashItem (a : Achash) (num : ℕ) : AchashItem := a.items.getD (num - 1) default

/-- Where the walk along a chain ends: at the item looked for, or at the last
one. -/
inductive ChainEnd where
  | found (num : ℕ)
  | last (num : ℕ)
  deriving DecidableEq, Repr

/-- The `while` loop of `achash_update`, with a bound on its iterations. -/
def walkChain (a : Achash) (addr pid : ℕ) : ℕ → ℕ → ℕ → Option ChainEnd
  | 0, _, _ => none
  | fuel + 1, num, last =>
      if num = 0 then some (ChainEnd.last last)
      else
        let item := achashItem a num
        if item.addr = addr ∧ item.pid = pid then some (ChainEnd.found num)
        else walkChain a addr pid fuel item.next num

/-- One more sample for an item that exists, in `achash_update`. -/
def countItem (a : Achash) (num : ℕ) : Achash :=
  let count := count16 ((achashItem a num).count + 1)
  let a := { a with
    items := a.items.modify (num - 1) fun item => { item with count := count }
    samples := uint (a.samples + 1) }
  histDec (histInc a count) (usub32 count 1)

/-- `achash_update`; the flag says that the table is full. -/
def achashUpdate (a : Achash) (addr pid hash : ℕ) : Option (Achash × Bool) :=
  let bucket := hash &&& a.mask
  let num := a.buckets.getD bucket 0
  if num = 0 then
    let a := achashNewItem a addr pid
    let a := { a with buckets := a.buckets.set bucket a.len }
    some (a, decide (a.len ≥ a.size))
  else
    (walkChain a addr pid (a.len + 1) num 0).map fun
      | .found num => (countItem a num, false)
      | .last last =>
          let a := achashNewItem a addr pid
          let a := { a with
            items := a.items.modify (last - 1) fun item => { item with next := field24 a.len } }
          (a, decide (a.len ≥ a.size))

/-- `std::sort` with `achash_cmp`: which of the permutations in order of count it
returns is not specified. -/
structure SortByCount where
  sort : List AchashItem → List AchashItem
  perm : ∀ items, (sort items).Perm items
  ordered : ∀ items, (sort items).Pairwise fun x y => x.count ≥ y.count

/-- `achash_bsearch`, between `start` and `stop`. -/
def achashBsearch (items : List AchashItem) (count start stop : ℕ) : ℕ :=
  if start < stop then
    let mid := (start + stop) / 2
    if (items.getD mid default).count ≤ count then achashBsearch items count start mid
    else achashBsearch items count (mid + 1) stop
  else start
termination_by stop - start

/-! ### The whole -/

/-- `struct cmsk`. -/
structure Cmsk where
  agingHalf : Bool
  cms : Cms
  achash : Achash
  nrHotPage : ℕ
  deriving DecidableEq, Repr

/-- `cmsk_init`. -/
def cmskInit (agingHalf hashMode : Bool) (widthOrder depth threshold sizeOrder histMax : ℕ) :
    Option Cmsk :=
  (achashInit hashMode threshold sizeOrder histMax).map fun achash =>
    { agingHalf := agingHalf
      cms := cmsInit widthOrder depth
      achash := achash
      nrHotPage := 0 }

/-- `cmsk_clear`. -/
def cmskClear (s : Cmsk) : Cmsk :=
  { s with
    cms := if s.achash.hashMode then { s.cms with total := 0 } else cmsClear s.cms
    achash := achashClear s.achash }

/-- `cmsk_age`. -/
def cmskAge (s : Cmsk) : Cmsk :=
  if s.agingHalf then { s with cms := cmsAge s.cms, achash := achashClear s.achash }
  else cmskClear s

/-- The count from which on a page is hot: `threshold`, plus `cms_error` outside
hash mode. -/
def hotThreshold (hashMode : Bool) (threshold : ℕ) (cms : Cms) : ℕ :=
  if hashMode then threshold else uint (threshold + cmsError cms)

/-- `cmsk_update`. -/
def cmskUpdate (s : Cmsk) (item1 item2 : ℕ) : Option (Cmsk × Bool) :=
  if s.achash.hashMode then
    let h := hash item1 item2 (s.cms.depth - 1)
    let s := { s with cms := { s.cms with total := uint (s.cms.total + 1) } }
    (achashUpdate s.achash item1 item2 h).map fun r => ({ s with achash := r.1 }, r.2)
  else
    let (cms, count, h) := cmsUpdate s.cms item1 item2
    let s := { s with cms := cms }
    if count ≥ hotThreshold false s.achash.threshold cms then
      (achashUpdate s.achash item1 item2 h).map fun r => ({ s with achash := r.1 }, r.2)
    else some (s, false)

/-- The updates of an interval, up to the first one that returns true. -/
def cmskUpdates (s : Cmsk) : List (ℕ × ℕ) → Option Cmsk
  | [] => some s
  | call :: calls =>
      (cmskUpdate s call.1 call.2).bind fun r =>
        if r.2 then some r.1 else cmskUpdates r.1 calls

/-- `cmsk_sort`. -/
def cmskSort (std : SortByCount) (s : Cmsk) : Cmsk :=
  let len := s.achash.len
  if len = 0 then { s with nrHotPage := 0 }
  else
    let items := std.sort s.achash.items
    let threshold := hotThreshold s.achash.hashMode s.achash.threshold s.cms
    let achash := { s.achash with items := items }
    let achash :=
      if (items.getD (len - 1) default).count < threshold then
        let newLen := achashBsearch items (count16 (threshold - 1)) 0 (len - 1)
        { achash with
          len := newLen
          samples := ((items.take len).drop newLen).foldl
            (fun samples item => usub32 samples item.count) achash.samples }
      else achash
    { s with achash := achash, nrHotPage := achash.len }

/-- `cmsk_hot_pages`: the first items, at most `n` of them. -/
def cmskHotPages (s : Cmsk) (n : ℕ) : List AchashItem :=
  s.achash.items.take (min n s.achash.len)

end MemoryOptimizer.PmuRefs
