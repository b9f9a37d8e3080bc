import MemoryOptimizer.AddrSequence.Visit

/-!
# Normalising the counts

`EPTMigrate::normalize_addr_sequence` turns every count of a sequence into 1 or 0, for
hot or not, while it visits the sequence. A user flag of the sequence tells that this
has been done, and a second call does nothing.

* `normalizeLoop_visit` — the loop, from any point of the visit on.
* `normalizeAddrSequence_relabels` — what the two calls do.
-/

namespace MemoryOptimizer

namespace AddrSequence

/-- The payload of a count. -/
def normalized (hotThreshold hotThresholdMax : ℤ) (count : ℕ) : ℕ :=
  if (count : ℤ) ≥ hotThreshold ∧ (count : ℤ) ≤ hotThresholdMax then 1 else 0

/-- The loop of `normalize_addr_sequence`, from the page that was read last, with a bound
on the iterations. -/
def normalizeLoop (hotThreshold hotThresholdMax : ℤ) :
    ℕ → AddrSequence → ℕ → ℕ → Option AddrSequence
  | 0, _, _, _ => none
  | fuel + 1, s, addr, count =>
      let newPayload := normalized hotThreshold hotThresholdMax count
      let (s, _) := s.setPayload addr newPayload
      match s.getNext with
      | (s, none) => some s
      | (s, some (addr, count, _)) => normalizeLoop hotThreshold hotThresholdMax fuel s addr count

end AddrSequence

open AddrSequence

/-- An `AddrSequence` with its `user_flags`. -/
structure FlaggedSequence where
  addrSeq : AddrSequence
  userFlags : ℕ

namespace FlaggedSequence

/-- `set_user_flag`. -/
def setUserFlag (s : FlaggedSequence) (bit : ℕ) : FlaggedSequence :=
  { s with userFlags := s.userFlags ||| 1 <<< bit }

/-- `is_user_flag_set`. -/
def isUserFlagSet (s : FlaggedSequence) (bit : ℕ) : Bool := s.userFlags &&& 1 <<< bit ≠ 0

/-- `FLAG_NORMALIZED`. -/
def flagNormalized : ℕ := 1

/-- `normalize_addr_sequence`; it returns 0 on every path. -/
def normalizeAddrSequence (s : FlaggedSequence) (hotThreshold hotThresholdMax : ℤ) :
    Option FlaggedSequence :=
  if s.isUserFlagSet flagNormalized then some s
  else
    match s.addrSeq.prepareUpdate.getFirst with
    | (addrSeq, none) => some ({ s with addrSeq := addrSeq }.setUserFlag flagNormalized)
    | (addrSeq, some (addr, count, _)) => do
        let addrSeq ← normalizeLoop hotThreshold hotThresholdMax addrSeq.addrSize addrSeq addr count
        pure ({ s with addrSeq := addrSeq }.setUserFlag flagNormalized)

/-- `normalize_page_hotness`. -/
def normalizePageHotness (s : FlaggedSequence) (threshold thresholdMax : ℤ) :
    Option FlaggedSequence :=
  if s.addrSeq.size = 0 then some s else s.normalizeAddrSequence threshold thresholdMax

end FlaggedSequence

/-! ### The loop -/

namespace AddrSequence

variable {hotThreshold hotThresholdMax : ℤ}

/-- A page with its count normalised. -/
def relabelled (hotThreshold hotThresholdMax : ℤ) (p : ℕ × DeltaPayload) : ℕ × DeltaPayload :=
  (p.1, { p.2 with payload := normalized hotThreshold hotThresholdMax p.2.payload })

/-- Every page is read before it is rewritten, and each is found again. -/
theorem normalizeLoop_visit {s₀ : AddrSequence} (hwalks : 2 ≤ s₀.nrWalks) {fuel : ℕ}
    {s : AddrSequence} {n : ℕ} {x : Stored} (hx : (allStored s₀)[n]? = some x)
    (h : Visit (fun _ d => { d with payload := normalized hotThreshold hotThresholdMax d.payload })
      s₀ s n (n + 1))
    (hfuel : (allStored s₀).length ≤ fuel + n) :
    ∃ t, normalizeLoop hotThreshold hotThresholdMax fuel s x.addr (payloadAt s₀ x) = some t ∧
      t.addrSize = s₀.addrSize ∧
      items t = (items s₀).map (relabelled hotThreshold hotThresholdMax) := by
  induction fuel generalizing s n x with
  | zero =>
      obtain ⟨hn, -⟩ := List.getElem?_eq_some_iff.mp hx
      omega
  | succ fuel ih =>
      have hupdate : ¬s.inAppendPeriod = true := by
        rw [inAppendPeriod, decide_eq_true_eq, h.nrWalks_eq]
        omega
      have hvisit := h.rewrite
        (writes_setPayload (normalized hotThreshold hotThresholdMax (payloadAt s₀ x))) hx rfl
      simp only [normalizeLoop, setPayload, if_neg hupdate, updateAddr]
      generalize (findLoop x.addr _ (s.addrSize + 1) s).1 = s₁ at *
      cases hy : (allStored s₀)[n + 1]? with
      | none =>
          have hend := List.getElem?_eq_none_iff.mp hy
          rw [hvisit.getNext_end hend]
          refine ⟨s₁, rfl, hvisit.addrSize_eq, ?_⟩
          rw [hvisit.items_of_done hend]
          exact List.mapIdx_eq_iff.mpr fun j => List.getElem?_map
      | some y =>
          obtain ⟨s₂, hnext, hvisit₂⟩ := hvisit.read hy
          have hview : view s₁ y = (y.addr, payloadAt s₀ y, (itemAt s₀.bufs y.slot).nid) := by
            rw [view, payloadAt, hvisit.item_eq hy le_rfl, payloadAt]
          rw [hnext, hview]
          exact ih hy hvisit₂ (by omega)

end AddrSequence

namespace FlaggedSequence

theorem isUserFlagSet_setUserFlag (s : FlaggedSequence) (bit : ℕ) :
    (s.setUserFlag bit).isUserFlagSet bit = true := by
  have hbit : ((s.userFlags ||| 1 <<< bit) &&& 1 <<< bit).testBit bit = true := by
    simp [Nat.testBit_and, Nat.testBit_or, Nat.testBit_shiftLeft]
  rw [isUserFlagSet, setUserFlag, decide_eq_true_eq]
  intro hzero
  rw [hzero, Nat.zero_testBit] at hbit
  cases hbit

/-- One call, for a sequence that is not normalised. -/
theorem normalizeAddrSequence_spec {s : FlaggedSequence} (lay : Layout s.addrSeq)
    (hwalks : 2 ≤ s.addrSeq.nrWalks) (hflag : s.isUserFlagSet flagNormalized = false)
    (hotThreshold hotThresholdMax : ℤ) :
    ∃ t, s.normalizeAddrSequence hotThreshold hotThresholdMax = some t ∧
      items t.addrSeq = (items s.addrSeq).map (relabelled hotThreshold hotThresholdMax) ∧
      t.addrSeq.size = s.addrSeq.size ∧ t.isUserFlagSet flagNormalized = true := by
  rw [normalizeAddrSequence, if_neg (by simp [hflag])]
  cases hx : (allStored s.addrSeq)[0]? with
  | none =>
      have hnil : allStored s.addrSeq = [] := by simpa using hx
      have hitems : items s.addrSeq = [] := by rw [items, hnil, List.map_nil]
      rw [getFirst_of_nil lay hnil]
      refine ⟨_, rfl, ?_, rfl, isUserFlagSet_setUserFlag _ _⟩
      rw [hitems]
      exact hitems
  | some x =>
      obtain ⟨s', hfirst, hvisit⟩ := visit_getFirst
        (fun _ d => { d with payload := normalized hotThreshold hotThresholdMax d.payload }) lay hx
      have hfuel : (allStored s.addrSeq).length ≤ s'.addrSize + 0 := by
        rw [hvisit.addrSize_eq, lay.addrSize_eq, Nat.add_zero]
      obtain ⟨t, hloop, hsize, hitems⟩ := normalizeLoop_visit hwalks hx hvisit hfuel
      refine ⟨({ s with addrSeq := t } : FlaggedSequence).setUserFlag flagNormalized, ?_, hitems,
        hsize, isUserFlagSet_setUserFlag _ _⟩
      simp only [hfirst, view, hloop, Option.bind_eq_bind, Option.bind_some, Option.pure_def]

/-- An empty sequence is left alone, any other one normalised. -/
theorem normalizePageHotness_spec {s : FlaggedSequence} (huse : InUse s.addrSeq)
    (hwalks : 2 ≤ s.addrSeq.nrWalks) (hflag : s.isUserFlagSet flagNormalized = false)
    (threshold thresholdMax : ℤ) :
    ∃ t, s.normalizePageHotness threshold thresholdMax = some t ∧
      items t.addrSeq = (items s.addrSeq).map (relabelled threshold thresholdMax) := by
  have lay := huse.layout
  rw [normalizePageHotness]
  split
  · next hsize =>
    have hnil : items s.addrSeq = [] := by
      rw [items, List.length_eq_zero_iff.mp (lay.addrSize_eq.symm.trans hsize), List.map_nil]
    exact ⟨s, rfl, by rw [hnil, List.map_nil]⟩
  · obtain ⟨t, ht, hitems, -⟩ :=
      normalizeAddrSequence_spec lay hwalks hflag threshold thresholdMax
    exact ⟨t, ht, hitems⟩

/-- Every sequence that has been walked at least twice and is not normalised yet: each
count becomes 1 or 0, nothing else in the sequence changes, and a second call, with any
thresholds, changes nothing. -/
theorem normalizeAddrSequence_relabels {s : FlaggedSequence} (huse : InUse s.addrSeq)
    (hwalks : 2 ≤ s.addrSeq.nrWalks) (hflag : s.isUserFlagSet flagNormalized = false)
    (hotThreshold hotThresholdMax : ℤ) :
    ∃ t, s.normalizeAddrSequence hotThreshold hotThresholdMax = some t ∧
      items t.addrSeq = (items s.addrSeq).map (relabelled hotThreshold hotThresholdMax) ∧
      t.addrSeq.size = s.addrSeq.size ∧
      ∀ hotThreshold' hotThresholdMax',
        t.normalizeAddrSequence hotThreshold' hotThresholdMax' = some t := by
  obtain ⟨t, ht, hitems, hsize, hset⟩ :=
    normalizeAddrSequence_spec huse.layout hwalks hflag hotThreshold hotThresholdMax
  exact ⟨t, ht, hitems, hsize, fun _ _ => if_pos hset⟩

/-- Two pages, walked twice: the one that both walks report is hot. -/
theorem normalizeAddrSequence_relabels_two :
    let s : FlaggedSequence :=
      ⟨((init.clear.setPageshift 12).walk [(0x1000, 1), (0x2000, 0)]).walk [(0x1000, 1)], 0⟩
    ∃ t, s.normalizeAddrSequence 2 2 = some t ∧
      items t.addrSeq = (items s.addrSeq).map (relabelled 2 2) ∧
      t.addrSeq.size = s.addrSeq.size ∧
      ∀ hotThreshold' hotThresholdMax',
        t.normalizeAddrSequence hotThreshold' hotThresholdMax' = some t :=
  normalizeAddrSequence_relabels
    (.walk (.firstWalk init 12 [(0x1000, 1), (0x2000, 0)] (by decide)) (by decide) _) (by decide)
    (by decide) 2 2

end FlaggedSequence

end MemoryOptimizer
