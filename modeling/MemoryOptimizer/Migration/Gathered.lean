import MemoryOptimizer.Migration.MemoryType
import MemoryOptimizer.Migration.Scan

/-!
# The node ids of a period

A new page has the node id -1, and `get_memory_type_range`, which writes all others, exits
on one above `MAX_NID`. So no sequence that walks and `get_memory_type` lead to stores
such a node id, and neither does a range after its period.

* `NidsLe` — no item of the buffers has a node id above `MAX_NID`.
* `Gathered` — the sequences that walks and `get_memory_type` lead to.
* `period_nid_le` — the pages of a range after a period.
-/

namespace MemoryOptimizer

open AddrSequence

namespace EPTScan

/-! ### The items -/

/-- No item has a node id above `MAX_NID`. -/
def NidsLe (s : AddrSequence) : Prop := ∀ buf off, (s.bufs buf off).nid ≤ maxNid

section Items

variable {s : AddrSequence}

theorem NidsLe.congr {s' : AddrSequence} (h : NidsLe s) (hbufs : s'.bufs = s.bufs) :
    NidsLe s' := by
  intro buf off
  rw [hbufs]
  exact h buf off

theorem NidsLe.setItem (h : NidsLe s) (p : DeltaPtr) (index : ℕ) {d : DeltaPayload}
    (hd : d.nid ≤ maxNid) : NidsLe (s.setItem p index d) := by
  intro buf off
  show (Function.update s.bufs p.buf (Function.update (s.bufs p.buf) (p.off + index) d) buf
    off).nid ≤ maxNid
  rcases eq_or_ne buf p.buf with rfl | hbuf
  · rw [Function.update_self]
    rcases eq_or_ne off (p.off + index) with rfl | hoff
    · rwa [Function.update_self]
    · rw [Function.update_of_ne hoff]
      exact h p.buf off
  · rw [Function.update_of_ne hbuf]
    exact h buf off

theorem NidsLe.updatePayload (h : NidsLe s) (iter : WalkIterator) (payload : ℕ)
    (isIncPayload : Bool) : NidsLe (s.doWalkUpdatePayload iter payload isIncPayload) := by
  have hwrite : ∀ payload, NidsLe (s.setItem iter.curDelta iter.deltaIndex
      { s.item iter.curDelta iter.deltaIndex with payload := payload }) := fun payload =>
    h.setItem iter.curDelta iter.deltaIndex (h iter.curDelta.buf _)
  unfold AddrSequence.doWalkUpdatePayload
  dsimp only
  split
  · split
    · exact h
    · exact hwrite _
  · exact hwrite payload

theorem NidsLe.updateNid (h : NidsLe s) (iter : WalkIterator) {nid : ℤ} (hnid : nid ≤ maxNid)
    (location : Location) : NidsLe (s.doWalkUpdateNid iter nid location) :=
  (h.setItem _ _ hnid).congr rfl

theorem NidsLe.findLoop {found : AddrSequence → AddrSequence}
    (hfound : ∀ s, NidsLe s → NidsLe (found s)) (h : NidsLe s) (addr fuel : ℕ) :
    NidsLe (findLoop addr found fuel s).1 :=
  findLoop_rule (fun _ _ h => h) hfound fuel h

/-- A new item. -/
theorem NidsLe.saveIntoCluster (h : NidsLe s) (c : AddrCluster) (addr n : ℕ) :
    NidsLe (s.saveIntoCluster c addr n) :=
  (h.setItem c.deltas c.size (d := ⟨_, _, -1, _⟩) (show (-1 : ℤ) ≤ maxNid by decide)).congr rfl

theorem NidsLe.createCluster (h : NidsLe s) (alloc : Alloc) (addr n : ℕ) :
    NidsLe (s.createCluster alloc addr n).1 := by
  have hbuffer : (s.getFreeBuffer alloc).1.bufs = s.bufs := by
    unfold AddrSequence.getFreeBuffer AddrSequence.allocateBuf
    dsimp only
    split_ifs <;> rfl
  unfold AddrSequence.createCluster
  dsimp only
  split
  · exact h.congr hbuffer
  · split
    · exact h.congr hbuffer
    · refine NidsLe.saveIntoCluster ?_ _ addr n
      exact h.congr hbuffer

theorem NidsLe.incPayload (h : NidsLe s) (alloc : Alloc) (addr n : ℕ) :
    NidsLe (s.incPayload alloc addr n).1 := by
  unfold AddrSequence.incPayload
  split
  · unfold AddrSequence.appendAddr
    split
    · exact h.createCluster alloc addr n
    · split
      · exact h
      · split
        · exact h.saveIntoCluster _ addr n
        · exact h.createCluster alloc addr n
  · exact h.findLoop (fun s hs => hs.updatePayload s.findIter n true) addr _

theorem NidsLe.setPayload (h : NidsLe s) (addr n : ℕ) : NidsLe (s.setPayload addr n).1 := by
  unfold AddrSequence.setPayload
  split
  · exact h
  · exact h.findLoop (fun s hs => hs.updatePayload s.findIter n false) addr _

theorem NidsLe.updateNodeid (h : NidsLe s) (addr : ℕ) {nid : ℤ} (hnid : nid ≤ maxNid)
    (location : Location) : NidsLe (s.updateNodeid addr nid location).1 := by
  unfold AddrSequence.updateNodeid
  split
  · exact h
  · exact h.findLoop (fun s hs => hs.updateNid s.findIter hnid location) addr _

theorem NidsLe.getNext (h : NidsLe s) : NidsLe s.getNext.1 := by
  unfold AddrSequence.getNext
  split
  · exact h
  · exact h.congr rfl

theorem NidsLe.getFirst (h : NidsLe s) : NidsLe s.getFirst.1 := by
  unfold AddrSequence.getFirst
  split
  · exact h
  · exact NidsLe.getNext (h.congr rfl)

/-! ### The pages -/

theorem NidsLe.getNext_nid_le (h : NidsLe s) {page : ℕ × ℕ × ℤ} (hpage : s.getNext.2 = some page) :
    page.2.2 ≤ maxNid := by
  unfold AddrSequence.getNext at hpage
  split at hpage
  · cases hpage
  · next r hwalk =>
    cases hpage
    unfold AddrSequence.doWalk at hwalk
    split at hwalk
    · cases hwalk
    · cases hwalk
      exact h _ _

theorem NidsLe.collectNext_nid_le (h : NidsLe s) (fuel : ℕ) :
    ∀ page ∈ collectNext fuel s, page.2.2 ≤ maxNid := by
  induction fuel generalizing s with
  | zero => exact fun _ hpage => absurd hpage List.not_mem_nil
  | succ fuel ih =>
      have hnext := h.getNext
      have hnid : ∀ page, s.getNext.2 = some page → page.2.2 ≤ maxNid :=
        fun _ => h.getNext_nid_le
      rw [collectNext]
      cases hread : s.getNext with
      | mk s' read =>
          rw [hread] at hnext hnid
          cases read with
          | none => exact fun _ hpage => absurd hpage List.not_mem_nil
          | some r =>
              intro page hpage
              rcases List.mem_cons.mp hpage with rfl | hpage
              · exact hnid _ rfl
              · exact ih hnext page hpage

theorem NidsLe.nid_le (h : NidsLe s) : ∀ page ∈ s.pages, page.2.2 ≤ maxNid := by
  have hfirst := h.getFirst
  have hnid : ∀ page, s.getFirst.2 = some page → page.2.2 ≤ maxNid := by
    intro page hpage
    unfold AddrSequence.getFirst at hpage
    split at hpage
    · cases hpage
    · exact NidsLe.getNext_nid_le (s := { s with walkIter := s.resetIterator s.walkIter 0 }) h hpage
  unfold AddrSequence.pages
  cases hread : s.getFirst with
  | mk s' read =>
      rw [hread] at hfirst hnid
      cases read with
      | none => exact fun _ hpage => absurd hpage List.not_mem_nil
      | some r =>
          intro page hpage
          rcases List.mem_cons.mp hpage with rfl | hpage
          · exact hnid _ rfl
          · exact hfirst.collectNext_nid_le _ page hpage

end Items

/-! ### `get_memory_type` -/

section Locate

variable {numa : NumaNodeCollection} {s s' : AddrSequence}

theorem NidsLe.locatePage (h : NidsLe s) {addr : ℕ} {nid : ℤ}
    (hlocate : locatePage numa addr nid s = some s') : NidsLe s' := by
  have hmax : (maxNid : ℤ) = 31 := rfl
  have hclamp : (if nid < -128 then -128 else nid) = max nid (-128) := by omega
  simp only [EPTScan.locatePage, hclamp] at hlocate
  by_cases hle : max nid (-128) > maxNid
  · rw [if_pos hle] at hlocate
    cases hlocate
  · rw [if_neg hle] at hlocate
    obtain ⟨location, -, hwritten⟩ := Option.bind_eq_some_iff.mp hlocate
    cases hwritten
    refine h.updateNodeid addr ?_ location
    rw [signedChar_of_bounds (le_max_right _ _) (by omega)]
    exact not_lt.mp hle

theorem NidsLe.locatePages {addrLocate : ℕ → ℤ} {addrs : List ℕ} {i : ℕ} (h : NidsLe s)
    (hlocate : locatePages numa addrLocate i addrs s = some s') : NidsLe s' := by
  induction addrs generalizing i s with
  | nil =>
      cases hlocate
      exact h
  | cons addr addrs ih =>
      obtain ⟨s₁, hfirst, hrest⟩ := Option.bind_eq_some_iff.mp hlocate
      exact ih (h.locatePage hfirst) hrest

theorem NidsLe.getMemoryTypeRange {answer : LocateAnswer} {addrs : List ℕ} (h : NidsLe s)
    (hlocate : getMemoryTypeRange numa answer addrs s = some s') : NidsLe s' := by
  unfold EPTScan.getMemoryTypeRange at hlocate
  split at hlocate
  · cases hlocate
    exact h
  · exact h.locatePages hlocate

theorem NidsLe.locateLoop {locator : ℕ → List ℕ → LocateAnswer} {fuel k addr : ℕ}
    {addrSet : List ℕ} (h : NidsLe s)
    (hlocate : locateLoop numa locator fuel k addrSet s addr = some s') : NidsLe s' := by
  induction fuel generalizing k addr addrSet s with
  | zero => cases hlocate
  | succ fuel ih =>
      have hread : ∀ {s₁ s₂ : AddrSequence} {read : Option (ℕ × ℕ × ℤ)}, NidsLe s₁ →
          s₁.getNext = (s₂, read) → NidsLe s₂ := by
        intro s₁ s₂ read h₁ hread
        have hnext := h₁.getNext
        rwa [hread] at hnext
      have hlast : ∀ {k : ℕ} {addrSet : List ℕ} {s₂ : AddrSequence}, NidsLe s₂ →
          (if addrSet.length ≠ 0 then
            EPTScan.getMemoryTypeRange numa (locator k addrSet) addrSet s₂
          else some s₂) = some s' → NidsLe s' := by
        intro k addrSet s₂ h₂ hlast
        split at hlast
        · exact h₂.getMemoryTypeRange hlast
        · cases hlast
          exact h₂
      rw [EPTScan.locateLoop] at hlocate
      by_cases hfull : (addrSet ++ [addr]).length ≥ locateBatch
      · simp only [if_pos hfull] at hlocate
        obtain ⟨s₁, hbatch, hlocate⟩ := Option.bind_eq_some_iff.mp hlocate
        have h₁ := h.getMemoryTypeRange hbatch
        split at hlocate
        · next hnext => exact ih (hread h₁ hnext) hlocate
        · next hnext => exact hlast (hread h₁ hnext) hlocate
      · simp only [if_neg hfull] at hlocate
        obtain ⟨s₁, hbatch, hlocate⟩ := Option.bind_eq_some_iff.mp hlocate
        cases hbatch
        split at hlocate
        · next hnext => exact ih (hread h hnext) hlocate
        · next hnext => exact hlast (hread h hnext) hlocate

theorem NidsLe.getMemoryTypeOne {locator : ℕ → List ℕ → LocateAnswer} (h : NidsLe s)
    (hlocate : getMemoryTypeOne numa locator s = some s') : NidsLe s' := by
  have hfirst : NidsLe s.prepareUpdate.getFirst.1 := NidsLe.getFirst (h.congr rfl)
  unfold EPTScan.getMemoryTypeOne at hlocate
  revert hlocate
  cases hread : s.prepareUpdate.getFirst with
  | mk s₁ read =>
      rw [hread] at hfirst
      intro hlocate
      cases read with
      | none =>
          cases hlocate
          exact hfirst
      | some r => exact hfirst.locateLoop hlocate

end Locate

/-! ### Sequences of a range -/

/-- The sequences that the periods of a range lead to: `prepare_walks` clears one, walks
add to it, anyone may visit it, and `get_memory_type` has not ended the program. -/
inductive Gathered : AddrSequence → Prop
  | init : Gathered AddrSequence.init
  | clear {s : AddrSequence} (h : Gathered s) (shift : ℕ) : Gathered (s.clear.setPageshift shift)
  | rewind {s : AddrSequence} (h : Gathered s) : Gathered s.rewind
  | incPayload {s : AddrSequence} (h : Gathered s) (alloc : Alloc) (addr n : ℕ) :
      Gathered (s.incPayload alloc addr n).1
  | prepareUpdate {s : AddrSequence} (h : Gathered s) : Gathered s.prepareUpdate
  | setPayload {s : AddrSequence} (h : Gathered s) (addr n : ℕ) : Gathered (s.setPayload addr n).1
  | getFirst {s : AddrSequence} (h : Gathered s) : Gathered s.getFirst.1
  | getNext {s : AddrSequence} (h : Gathered s) : Gathered s.getNext.1
  | getMemoryType {s s' : AddrSequence} (h : Gathered s) (numa : NumaNodeCollection)
      (locator : ℕ → List ℕ → LocateAnswer)
      (hlocate : getMemoryTypeOne numa locator s = some s') : Gathered s'

theorem Gathered.nidsLe {s : AddrSequence} (h : Gathered s) : NidsLe s := by
  induction h with
  | init => exact fun _ _ => (by decide : (0 : ℤ) ≤ maxNid)
  | clear _ shift ih => exact ih.congr rfl
  | rewind _ ih => exact ih.congr rfl
  | incPayload _ alloc addr n ih => exact ih.incPayload alloc addr n
  | prepareUpdate _ ih => exact ih.congr rfl
  | setPayload _ addr n ih => exact ih.setPayload addr n
  | getFirst _ ih => exact ih.getFirst
  | getNext _ ih => exact ih.getNext
  | getMemoryType _ numa locator hlocate ih => exact ih.getMemoryTypeOne hlocate

/-- Pages that a walk finds. -/
theorem Gathered.foldl_incPayload {s : AddrSequence} (h : Gathered s) (alloc : Alloc)
    (found : List (ℕ × ℕ)) :
    Gathered (found.foldl (fun s page => (s.incPayload alloc page.1 page.2).1) s) := by
  induction found generalizing s with
  | nil => exact h
  | cons page found ih => exact ih (h.incPayload alloc page.1 page.2)

/-- The program goes on with a sequence only if `get_memory_type` has not ended it. -/
theorem Gathered.located {s : AddrSequence} (h : Gathered s) (numa : NumaNodeCollection)
    (locator : ℕ → List ℕ → LocateAnswer) :
    Gathered ((EPTScan.getMemoryTypeOne numa locator s).getD s) := by
  cases hlocate : EPTScan.getMemoryTypeOne numa locator s with
  | none => exact h
  | some s' => exact h.getMemoryType numa locator hlocate

end EPTScan

open EPTScan

/-! ### Ranges -/

/-- What a walk has found are sequences of a range. -/
def WalkOutcome.Gathered : WalkOutcome → Prop
  | .walked pageRefs _ => ∀ type, EPTScan.Gathered (pageRefs type)
  | _ => True

namespace EPTMigrate

/-- **After a period** no page has a node id above `MAX_NID`. -/
theorem period_nid_le (numa : NumaNodeCollection) (range : EPTMigrate) {scans : List WalkOutcome}
    (hscans : ∀ scan ∈ scans, scan.Gathered) {type : ProcIdlePageType}
    (htype : type ∈ accessedTypes) :
    ∀ page ∈ ((range.period numa scans).pagetypeRefs type).pageRefs.pages,
      page.2.2 ≤ maxNid := by
  have hwalks : ∀ range : EPTMigrate,
      (∀ page ∈ (range.pagetypeRefs type).pageRefs.pages, page.2.2 ≤ maxNid) →
        ∀ page ∈ ((scans.foldl walk range).pagetypeRefs type).pageRefs.pages,
          page.2.2 ≤ maxNid := by
    induction scans with
    | nil => exact fun _ h => h
    | cons scan scans ih =>
        obtain ⟨hscan, hscans⟩ := List.forall_mem_cons.mp hscans
        intro range hrange
        refine ih hscans (range.walk scan) ?_
        cases scan with
        | placementDram => exact hrange
        | noMaps => exact hrange
        | openFailed => exact hrange
        | walked pageRefs failed => exact (hscan type).nidsLe.nid_le
  -- `prepare_walks` leaves no page
  have hcleared : ∀ page ∈ (range.prepareWalks.pagetypeRefs type).pageRefs.pages,
      page.2.2 ≤ maxNid := by
    simp only [prepareWalks, if_pos htype]
    exact fun _ hpage => absurd hpage List.not_mem_nil
  have hcount : ((range.period numa scans).pagetypeRefs type).pageRefs =
      ((scans.foldl walk range.prepareWalks).pagetypeRefs type).pageRefs := by
    unfold period countRefs
    split
    · rfl
    · dsimp only
      split <;> rfl
  rw [hcount]
  exact hwalks _ hcleared

end EPTMigrate

end MemoryOptimizer
