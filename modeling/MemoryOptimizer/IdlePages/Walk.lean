import MemoryOptimizer.AddrSequence.Basic
import MemoryOptimizer.Config.Parser
import MemoryOptimizer.IdlePages.Parse
import MemoryOptimizer.Process.SplitRanges

/-!
# A walk

`ProcIdlePages::walk` goes over the mappings of a process; `walk_vma` seeks to a
mapping, reads the idle-page file in pieces until the cursor is behind the
mapping, and hands each piece to `parse_idlepages`, whose calls of
`inc_page_refs` count the pages.

The file is the environment's (`IdleFile`): `σ` is whatever the kernel keeps,
page tables included.  A walk returns `none` if `fuel` reads of one mapping are
not enough, or if the decoder loops for ever.
-/

namespace MemoryOptimizer

/-- How a `read` of the idle-page file returns: with bytes, or with an errno. -/
inductive IdleRead where
  | data (bytes : List ℕ)
  | enxio
  | erange
  | error

/-- The idle-page file as a walk uses it. -/
structure IdleFile (σ : Type) where
  /-- `open_file` -/
  openFile : σ → Option σ
  /-- `lseek(idle_fd, va, SEEK_SET)` -/
  seekSet : σ → ℕ → Option σ
  /-- `lseek(idle_fd, 0, SEEK_CUR)` -/
  seekCur : σ → Option ℕ
  /-- `read(idle_fd, read_buf.data(), size)` -/
  read : σ → ℕ → σ × IdleRead

/-- `proc_maps_entry`, with the fields that `is_anonymous` looks at. -/
structure Vma extends Process.ProcMapsEntry where
  write : Bool
  exec : Bool
  mayshare : Bool
  ino : ℕ

/-- `ProcMaps::is_anonymous`. -/
def Vma.isAnonymous (vma : Vma) : Bool :=
  if vma.mayshare then false
  else if vma.exec then false
  else if vma.ino = 0 then true
  else if vma.write then true
  else false

/-- `pagetype_index`; the table ends with `PMD_IDLE`. -/
def ProcIdlePageType.index : ProcIdlePageType → ProcIdlePageType
  | pmdAccessed | pmdDirty | pmdIdle => pmdAccessed
  | pudPresent => pudPresent
  | _ => pteAccessed

/-- What `inc_page_refs` adds to the count of a page of a type. -/
def ProcIdlePageType.weight (type : ProcIdlePageType) : ℕ :=
  if type.code ≥ pteIdle.code then 0 else if type.code ≥ pteDirty.code then 3 else 1

/-- `class ProcIdlePages`, as far as a walk uses it.  `readBuf` is what the reads
have left in the buffer; behind it the buffer is zero. -/
structure ProcIdlePages where
  placement : OptionParser.Placement
  vaStart : ℕ
  vaEnd : ℕ
  ioError : ℤ
  nrWalks : ℕ
  pageRefs : ProcIdlePageType → AddrSequence
  readBuf : List ℕ
  minReadSize : ℕ
  nextVa : ℕ

namespace ProcIdlePages

def pageSize : ℕ := 2 ^ 12

def readBufSize : ℕ := 1 <<< 20

/-- `EPT_IDLE_BUF_MIN`. -/
def eptIdleBufMin : ℕ := (8 + 2) * 2

def esrch : ℤ := 3

/-- The loop of `inc_page_refs`. -/
def incLoop (type : ProcIdlePageType) (stop : ℕ) : ℕ → ℕ → AddrSequence → AddrSequence
  | 0, _, pageRefs => pageRefs
  | nr + 1, va, pageRefs =>
      let pageRefs := (pageRefs.incPayload Alloc.ok va type.weight).1
      let va := ulong (va + type.size)
      if va ≥ stop then pageRefs else incLoop type stop nr va pageRefs

/-- `inc_page_refs`; an allocation for a page that is new succeeds. -/
def incPageRefs (stop : ℕ) (pageRefs : ProcIdlePageType → AddrSequence) (call : RefCall) :
    ProcIdlePageType → AddrSequence :=
  if call.va &&& (call.type.size - 1) ≠ 0 then pageRefs
  else
    Function.update pageRefs call.type.index
      (incLoop call.type stop call.nr call.va (pageRefs call.type.index))

/-- The size of the next `read`. -/
def readSize (minReadSize va stop : ℕ) : ℕ :=
  let size := ulong (usub stop va + 7 <<< 12) >>> 15
  let size := if size < minReadSize then minReadSize else size
  if size > readBufSize then readBufSize else size

section File

variable {σ : Type} (file : IdleFile σ)

/-- `for (; va < end;)` of `walk_vma`, from `va` on, and what follows it. -/
def walkVmaLoop (stop : ℕ) : ℕ → ℕ → σ → ProcIdlePages → Option (σ × ProcIdlePages × ℤ)
  | 0, _, _, _ => none
  | fuel + 1, va, w, s =>
      if va < stop then
        match file.seekCur w with
        | none => some (w, { s with ioError := -1 }, -1)
        | some pos =>
            match if pos < va then file.seekSet w va else some w with
            | none => some (w, { s with ioError := -1 }, -2)
            | some w =>
                let size := readSize s.minReadSize va stop
                match file.read w size with
                | (w, .enxio) => some (w, s, 0)
                | (w, .erange) =>
                    let va := ulong (va + size <<< 15)
                    match file.seekSet w va with
                    | none => some (w, { s with ioError := -1 }, -1)
                    | some w => walkVmaLoop stop fuel va w s
                | (w, .error) => some (w, { s with ioError := -1 }, -1)
                | (w, .data bytes) =>
                    let s := { s with readBuf := bytes ++ s.readBuf.drop bytes.length }
                    if bytes.length = 0 then some (w, s, 0)
                    else
                      match parseIdlepages s.readBuf va stop bytes.length with
                      | none => none
                      | some (va, calls) =>
                          walkVmaLoop stop fuel va w
                            { s with pageRefs := calls.foldl (incPageRefs stop) s.pageRefs }
      else some (w, { s with nextVa := va }, 0)

/-- `walk_vma`; a return value other than 0 stops the walk. -/
def walkVma (fuel : ℕ) (w : σ) (s : ProcIdlePages) (vma : Vma) :
    Option (σ × ProcIdlePages × ℤ) :=
  if vma.stop ≤ s.nextVa then some (w, s, 0)
  else if vma.stop ≤ s.vaStart then some (w, s, 0)
  else if vma.start ≥ s.vaEnd then some (w, s, 1)
  else if !vma.isAnonymous then some (w, s, 0)
  else
    let va := if vma.start < s.nextVa then s.nextVa else vma.start
    let va := if va < s.vaStart then s.vaStart else va
    let stop := if vma.stop > s.vaEnd then s.vaEnd else vma.stop
    match file.seekSet w va with
    | none => some (w, { s with ioError := -1 }, -1)
    | some w => walkVmaLoop file stop fuel va w s

/-- `for (auto &vma: address_map)` of `walk`; `err` is the last return value. -/
def walkVmas (fuel : ℕ) : List Vma → ℤ → σ → ProcIdlePages → Option (σ × ProcIdlePages × ℤ)
  | [], err, w, s => some (w, s, err)
  | vma :: vmas, _, w, s =>
      match walkVma file fuel w s vma with
      | none => none
      | some (w, s, err) => if err ≠ 0 then some (w, s, err) else walkVmas fuel vmas err w s

/-- `min_read_size`, for the option `max_threads`. -/
def minReadSizeOf (maxThreads : ℤ) : ℕ := if maxThreads ≤ 1 then pageSize else eptIdleBufMin

/-- The members as `walk` sets them before the first mapping. -/
def startWalk (maxThreads : ℤ) (s : ProcIdlePages) : ProcIdlePages :=
  { s with
    nrWalks := s.nrWalks + 1
    minReadSize := minReadSizeOf maxThreads
    pageRefs := fun type => (s.pageRefs type).rewind
    nextVa := 0 }

/-- `walk`, with the mappings that `proc_maps.load` returns. -/
def walk (fuel : ℕ) (maxThreads : ℤ) (addressMap : List Vma) (w : σ) (s : ProcIdlePages) :
    Option (σ × ProcIdlePages × ℤ) :=
  if s.placement = .dram then some (w, { s with ioError := 1 }, 0)
  else if addressMap = [] then some (w, { s with ioError := -esrch }, -esrch)
  else
    match file.openFile w with
    | none => some (w, { s with ioError := -1 }, -1)
    | some w => walkVmas file fuel addressMap (-1) w (s.startWalk maxThreads)

end File

end ProcIdlePages

end MemoryOptimizer
