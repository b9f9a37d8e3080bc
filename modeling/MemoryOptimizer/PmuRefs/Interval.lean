import MemoryOptimizer.PmuRefs.Table

/-!
# The samples of an interval

`reference` is what the updates of an interval amount to: the sketch decides
which samples reach the table, and the table is the list of entries that
`record` makes of them, until it is full.  `cmskUpdates_spec` says that from a
table just cleared the code computes it.
-/

namespace MemoryOptimizer.PmuRefs

/-- An address and a process: the arguments of a `cmsk_update`. -/
abbrev Key := ℕ × ℕ

/-- The sketch after a sample, and whether the sample goes on to the table. -/
def sample (hashMode : Bool) (threshold : ℕ) (cms : Cms) (key : Key) : Cms × Bool :=
  if hashMode then ({ cms with total := uint (cms.total + 1) }, true)
  else
    let r := cmsUpdate cms key.1 key.2
    (r.1, decide (r.2.1 ≥ hotThreshold false threshold r.1))

/-- The sketch and the entries after one sample. -/
def referenceStep (hashMode : Bool) (threshold : ℕ) (cms : Cms) (l : List (Key × ℕ))
    (key : Key) : Cms × List (Key × ℕ) :=
  let r := sample hashMode threshold cms key
  (r.1, if r.2 then record (if hashMode then 1 else threshold) key l else l)

/-- The sketch and the entries after the samples of an interval; the sample that
fills a table of `size` items is the last one. -/
def reference (hashMode : Bool) (threshold size : ℕ) :
    Cms → List (Key × ℕ) → List Key → Cms × List (Key × ℕ)
  | cms, l, [] => (cms, l)
  | cms, l, key :: keys =>
      let r := referenceStep hashMode threshold cms l key
      if r.2.length ≥ size then r else reference hashMode threshold size r.1 r.2 keys

/-- The bucket of a key; outside hash mode `h` is the hash of the last row. -/
def bucketOf (hashMode : Bool) (mask : ℕ) (cms : Cms) (key : Key) : ℕ :=
  if hashMode then hash key.1 key.2 (cms.depth - 1) &&& mask
  else (if cms.depth = 0 then 0 else hash key.1 key.2 (cms.depth - 1) &&& cms.widthMask) &&& mask

/-- The parts of a sketch that no update changes. -/
structure SameShape (cms cms' : Cms) : Prop where
  depth_eq : cms'.depth = cms.depth
  widthMask_eq : cms'.widthMask = cms.widthMask

theorem cmsUpdateRows_shape (item1 item2 : ℕ) (cms : Cms) (i : ℕ) :
    SameShape cms (cmsUpdateRows item1 item2 cms i).1 := by
  induction i with
  | zero => exact ⟨rfl, rfl⟩
  | succ i ih => exact ⟨ih.depth_eq, ih.widthMask_eq⟩

theorem cmsUpdateRows_hash (item1 item2 : ℕ) (cms : Cms) (i : ℕ) :
    (cmsUpdateRows item1 item2 cms i).2.2 =
      if i = 0 then 0 else hash item1 item2 (i - 1) &&& cms.widthMask := by
  cases i with
  | zero => rfl
  | succ i =>
      rw [if_neg (Nat.succ_ne_zero i)]
      exact congrArg (hash item1 item2 i &&& ·)
        (cmsUpdateRows_shape item1 item2 cms i).widthMask_eq

theorem cmsUpdate_shape (cms : Cms) (item1 item2 : ℕ) :
    SameShape cms (cmsUpdate cms item1 item2).1 :=
  ⟨(cmsUpdateRows_shape item1 item2 cms cms.depth).depth_eq,
    (cmsUpdateRows_shape item1 item2 cms cms.depth).widthMask_eq⟩

theorem sample_shape (hashMode : Bool) (threshold : ℕ) (cms : Cms) (key : Key) :
    SameShape cms (sample hashMode threshold cms key).1 := by
  unfold sample
  cases hashMode with
  | true => exact ⟨rfl, rfl⟩
  | false => exact cmsUpdate_shape cms key.1 key.2

theorem bucketOf_congr {cms cms' : Cms} (same : SameShape cms cms') (hashMode : Bool)
    (mask : ℕ) : bucketOf hashMode mask cms' = bucketOf hashMode mask cms := by
  funext key
  rw [bucketOf, bucketOf, same.depth_eq, same.widthMask_eq]

/-- `cmsk_update`: the sketch counts the sample, and a hot one goes to the table. -/
theorem cmskUpdate_eq (s : Cmsk) (key : Key) : ∃ h,
    h &&& s.achash.mask = bucketOf s.achash.hashMode s.achash.mask s.cms key ∧
    cmskUpdate s key.1 key.2 =
      let r := sample s.achash.hashMode s.achash.threshold s.cms key
      if r.2 then (achashUpdate s.achash key.1 key.2 h).map fun u =>
        ({ s with cms := r.1, achash := u.1 }, u.2)
      else some ({ s with cms := r.1 }, false) := by
  cases hm : s.achash.hashMode with
  | true =>
      exact ⟨hash key.1 key.2 (s.cms.depth - 1), by simp [bucketOf],
        by simp [cmskUpdate, sample, hm]⟩
  | false =>
      refine ⟨(cmsUpdate s.cms key.1 key.2).2.2, ?_, by simp [cmskUpdate, sample, hm]⟩
      have hhash : (cmsUpdate s.cms key.1 key.2).2.2 =
          (cmsUpdateRows key.1 key.2 s.cms s.cms.depth).2.2 := rfl
      rw [hhash, cmsUpdateRows_hash]
      simp [bucketOf]

/-! ### Counts only grow -/

theorem exists_mem_record {initial : ℕ} {key : Key} {l : List (Key × ℕ)} {e : Key × ℕ}
    (he : e ∈ l) : ∃ e' ∈ record initial key l, e.2 ≤ e'.2 := by
  unfold record
  split
  · refine ⟨_, List.mem_map_of_mem he, ?_⟩
    split
    · exact Nat.le_succ _
    · exact le_rfl
  · exact ⟨e, List.mem_append_left _ he, le_rfl⟩

theorem exists_mem_referenceStep (hashMode : Bool) (threshold : ℕ) (cms : Cms)
    {l : List (Key × ℕ)} (key : Key) {e : Key × ℕ} (he : e ∈ l) :
    ∃ e' ∈ (referenceStep hashMode threshold cms l key).2, e.2 ≤ e'.2 := by
  simp only [referenceStep]
  cases (sample hashMode threshold cms key).2 with
  | true => exact exists_mem_record he
  | false => exact ⟨e, he, le_rfl⟩

theorem exists_mem_reference {hashMode : Bool} {threshold size : ℕ} {keys : List Key}
    {cms : Cms} {l : List (Key × ℕ)} {e : Key × ℕ} (he : e ∈ l) :
    ∃ e' ∈ (reference hashMode threshold size cms l keys).2, e.2 ≤ e'.2 := by
  induction keys generalizing cms l e with
  | nil => exact ⟨e, he, le_rfl⟩
  | cons key keys ih =>
      obtain ⟨e₁, he₁, hle₁⟩ :=
        exists_mem_referenceStep hashMode threshold cms key he
      unfold reference
      simp only
      split
      · exact ⟨e₁, he₁, hle₁⟩
      · obtain ⟨e₂, he₂, hle₂⟩ := ih he₁
        exact ⟨e₂, he₂, hle₁.trans hle₂⟩

theorem sum_record {initial : ℕ} {key : Key} {l : List (Key × ℕ)}
    (hnodup : (l.map Prod.fst).Nodup) : ((record initial key l).map Prod.snd).sum =
      (l.map Prod.snd).sum + if key ∈ l.map Prod.fst then 1 else initial := by
  unfold record
  split
  · rename_i hkey
    obtain ⟨⟨k, c⟩, hmem, rfl⟩ := List.mem_map.mp hkey
    obtain ⟨before, after, rfl⟩ := List.append_of_mem hmem
    rw [List.map_append, List.map_cons, List.nodup_append, List.nodup_cons] at hnodup
    obtain ⟨-, ⟨hafter, -⟩, hdisjoint⟩ := hnodup
    -- the other entries keep their counts
    have hkeep : ∀ l' : List (Key × ℕ), k ∉ l'.map Prod.fst →
        (l'.map fun e => if e.1 = k then (e.1, e.2 + 1) else e) = l' := by
      intro l' hl'
      refine (List.map_congr_left fun e he => if_neg ?_).trans (List.map_id l')
      rintro h
      exact hl' (h ▸ List.mem_map_of_mem he)
    have hbefore : k ∉ before.map Prod.fst :=
      fun hk => hdisjoint k hk k (List.mem_cons_self ..) rfl
    rw [List.map_append, List.map_cons, hkeep before hbefore, hkeep after hafter]
    simp only [if_true, List.map_append, List.map_cons, List.sum_append, List.sum_cons]
    omega
  · simp

/-! ### The updates of an interval -/

/-- What the updates of an interval maintain: the table holds the entries `l`,
and `samples` is the sum of their counts. -/
structure Holds (l : List (Key × ℕ)) (s : Cmsk) : Prop where
  table : Table (bucketOf s.achash.hashMode s.achash.mask s.cms) s.achash
  entries_eq : s.achash.entries = l
  samples_eq : s.achash.samples = uint (l.map Prod.snd).sum

theorem uint_add (a b : ℕ) : uint (uint a + b) = uint (a + b) := by
  simp only [uint, Nat.mod_add_mod]

theorem Holds.length_eq {l : List (Key × ℕ)} {s : Cmsk} (hs : Holds l s) :
    s.achash.len = l.length := by
  rw [← hs.entries_eq, Achash.entries, List.length_map, Achash.current, List.length_take,
    Nat.min_eq_left hs.table.len_le_length]

/-- One update: the sketch and the table follow the reference. -/
theorem cmskUpdate_spec {s : Cmsk} {l : List (Key × ℕ)} {key : Key} (hs : Holds l s)
    (hroom : l.length < s.achash.size) (hpid : key.2 < 2 ^ 24)
    {r : Cms × List (Key × ℕ)}
    (hr : referenceStep s.achash.hashMode s.achash.threshold s.cms l key = r)
    (hfit : ∀ e ∈ r.2, e.2 < 2 ^ 16) :
    ∃ s', cmskUpdate s key.1 key.2 = some (s', decide (r.2.length ≥ s.achash.size)) ∧
      s'.agingHalf = s.agingHalf ∧ SameConfig s.achash s'.achash ∧ s'.cms = r.1 ∧
      Holds r.2 s' := by
  obtain ⟨h, hbucket, heq⟩ := cmskUpdate_eq s key
  have hshape := bucketOf_congr
    (sample_shape s.achash.hashMode s.achash.threshold s.cms key) s.achash.hashMode s.achash.mask
  unfold referenceStep at hr
  rw [heq]
  cases hhot : (sample s.achash.hashMode s.achash.threshold s.cms key).2 with
  | false =>
      simp only [hhot, Bool.false_eq_true, if_false] at hr ⊢
      subst hr
      have hfull : ¬l.length ≥ s.achash.size := not_le.mpr hroom
      refine ⟨{ s with cms := (sample s.achash.hashMode s.achash.threshold s.cms key).1 },
        by rw [decide_eq_false hfull], rfl, ⟨rfl, rfl, rfl, rfl⟩, rfl, ?_⟩
      exact ⟨by simpa only [hshape] using hs.table, hs.entries_eq, hs.samples_eq⟩
  | true =>
      simp only [hhot, if_true] at hr ⊢
      subst hr
      obtain ⟨a, hupdate, table, same, hentries, hsamples⟩ := achashUpdate_spec hs.table hbucket
        hpid (by rw [hs.length_eq]; exact hroom) (by rw [hs.entries_eq]; exact hfit)
      have hnodup := hs.table.keys_nodup
      rw [hs.entries_eq] at hentries hsamples hnodup
      let s' : Cmsk :=
        { s with cms := (sample s.achash.hashMode s.achash.threshold s.cms key).1, achash := a }
      have hholds : Holds (record (initialCount s.achash) key l) s' := by
        refine ⟨?_, hentries, ?_⟩
        · show Table (bucketOf a.hashMode a.mask _) a
          rw [same.hashMode_eq, same.mask_eq, hshape]
          exact table
        · show a.samples = _
          rw [hsamples, hs.samples_eq, uint_add, sum_record hnodup]
      refine ⟨s', ?_, rfl, same, rfl, hholds⟩
      have hlength : a.len = (record (initialCount s.achash) key l).length := hholds.length_eq
      rw [hupdate, Option.map_some, same.size_eq, hlength]
      rfl

/-- The updates of an interval compute the reference. -/
theorem cmskUpdates_spec {keys : List Key} {s : Cmsk} {l : List (Key × ℕ)} (hs : Holds l s)
    (hroom : l.length < s.achash.size) (hpid : ∀ key ∈ keys, key.2 < 2 ^ 24)
    {r : Cms × List (Key × ℕ)}
    (hr : reference s.achash.hashMode s.achash.threshold s.achash.size s.cms l keys = r)
    (hfits : ∀ e ∈ r.2, e.2 < 2 ^ 16) :
    ∃ s', cmskUpdates s keys = some s' ∧ s'.agingHalf = s.agingHalf ∧
      SameConfig s.achash s'.achash ∧ s'.cms = r.1 ∧ Holds r.2 s' := by
  induction keys generalizing s l with
  | nil =>
      subst hr
      exact ⟨s, rfl, rfl, ⟨rfl, rfl, rfl, rfl⟩, rfl, hs⟩
  | cons key keys ih =>
      obtain ⟨hpid, hpids⟩ := List.forall_mem_cons.mp hpid
      rw [reference] at hr
      generalize hstep : referenceStep s.achash.hashMode s.achash.threshold s.cms l key = r₁ at hr
      by_cases hfull : r₁.2.length ≥ s.achash.size
      · rw [if_pos hfull] at hr
        subst hr
        obtain ⟨s₁, hupdate, haging, same, hcms, hholds⟩ :=
          cmskUpdate_spec hs hroom hpid hstep hfits
        exact ⟨s₁, by simp [cmskUpdates, hupdate, hfull], haging, same, hcms, hholds⟩
      · rw [if_neg hfull] at hr
        -- the counts after this sample are at most the final ones
        have hfit : ∀ e ∈ r₁.2, e.2 < 2 ^ 16 := by
          intro e he
          obtain ⟨e', he', hle⟩ := exists_mem_reference he
          exact hle.trans_lt (hfits e' (hr ▸ he'))
        obtain ⟨s₁, hupdate, haging, same, hcms, hholds⟩ :=
          cmskUpdate_spec hs hroom hpid hstep hfit
        obtain ⟨s₂, hupdates, haging₂, same₂, hcms₂, hholds₂⟩ := ih hholds
          (by rw [same.size_eq]; exact not_le.mp hfull) hpids
          (by rw [same.hashMode_eq, same.threshold_eq, same.size_eq, hcms]; exact hr)
        exact ⟨s₂, by simp [cmskUpdates, hupdate, hfull, hupdates], haging₂.trans haging,
          same.trans same₂, hcms₂, hholds₂⟩

end MemoryOptimizer.PmuRefs
